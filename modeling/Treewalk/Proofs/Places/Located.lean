import Treewalk.Proofs.Places.Parts
import Treewalk.Proofs.Proper

/-! Facts about every phrase of a session, by induction on the way to it: nothing is wrong with it if nothing is
wrong with its program, it is proper if its program is, and its scope knows the names it declares. -/
namespace Treewalk

open Walk

inductive Located (programs : List Program) : Address → Place → Phrase → Prop where
  | program {index body} (here : programs[index]? = some body) :
      Located programs [.program index] .outermost (.program body)
  | part {address place phrase step place' part} (outer : Located programs address place phrase)
      (inside : phrase.part? address place step = some (place', part)) :
      Located programs (step :: address) place' part

section
variable {programs : List Program} {address : Address} {place : Place} {phrase : Phrase}

theorem locateNonempty (found : locate programs address = some (place, phrase)) :
    ∃ step rest, address = step :: rest := by
  cases address with
  | nil => cases found
  | cons step rest => exact ⟨step, rest, rfl⟩

theorem locateStep (step next : Step) (rest : Address) :
    locate programs (step :: next :: rest) = (do
      let (place, phrase) ← locate programs (next :: rest)
      phrase.part? (next :: rest) place step) := by
  cases step <;> rfl

theorem Located.locate (located : Located programs address place phrase) :
    locate programs address = some (place, phrase) := by
  induction located with
  | program here => simp [Treewalk.locate, here]
  | part outer inside ih =>
    obtain ⟨next, rest, rfl⟩ := locateNonempty ih
    rw [locateStep, ih]
    exact inside

theorem locatedOf (found : locate programs address = some (place, phrase)) :
    Located programs address place phrase := by
  induction address generalizing place phrase with
  | nil => cases found
  | cons step address ih =>
    cases address with
    | nil =>
      cases step with
      | program index =>
        obtain ⟨body, here, same⟩ := Option.map_eq_some_iff.mp found
        cases same
        exact .program here
      | _ => cases found
    | cons next rest =>
      rw [locateStep] at found
      obtain ⟨⟨outer, whole⟩, here, inside⟩ := Option.bind_eq_some_iff.mp found
      exact .part (ih here) inside

theorem Located.around {step : Step} (located : Located programs (step :: address) place phrase)
    (more : address ≠ []) : ∃ place' phrase', Located programs address place' phrase' ∧
      phrase'.part? address place' step = some (place, phrase) := by
  cases located with
  | program here => exact absurd rfl more
  | part outer inside => exact ⟨_, _, outer, inside⟩

theorem Located.unique {place' : Place} {phrase' : Phrase} (here : Located programs address place phrase)
    (also : Located programs address place' phrase') : place = place' ∧ phrase = phrase' := by
  have same := here.locate.symm.trans also.locate
  cases same
  exact ⟨rfl, rfl⟩

theorem locatedAccepted (accepted : ∀ p ∈ programs, p.resolve.2 = [])
    (located : Located programs address place phrase) : (phrase.resolve.after place.context).errors = [] := by
  induction located with
  | program here => exact accepted _ (List.mem_of_getElem? here)
  | part outer inside clean =>
    have kept := Phrase.partErrors inside
    rw [clean] at kept
    exact List.prefix_nil.mp kept

end

def Phrase.Proper : Phrase → Prop
  | .program body => Stmt.ProperAll body
  | .stmt s => s.Proper
  | .expr e => e.Proper
  | .function _ decl => decl.Proper

theorem Stmt.properAll (body : List Stmt) : Stmt.ProperAll body ↔ ∀ s ∈ body, s.Proper := by
  induction body with
  | nil => simp [Stmt.ProperAll]
  | cons s rest ih => simp [Stmt.ProperAll, ih]

theorem Expr.properAll (es : List Expr) : Expr.ProperAll es ↔ ∀ e ∈ es, e.Proper := by
  induction es with
  | nil => simp [Expr.ProperAll]
  | cons e rest ih => simp [Expr.ProperAll, ih]

theorem FunctionDecl.properAll (decls : List FunctionDecl) :
    FunctionDecl.ProperAll decls ↔ ∀ f ∈ decls, f.Proper := by
  induction decls with
  | nil => simp [FunctionDecl.ProperAll]
  | cons f rest ih => simp [FunctionDecl.ProperAll, ih]

theorem Expr.partsProper {e : Expr} (proper : e.Proper) : ∀ part ∈ e.parts, part.Proper := by
  cases e with
  | call callee arguments line =>
    exact List.forall_mem_cons.mpr ⟨proper.1, (Expr.properAll arguments).mp proper.2⟩
  | _ => simp_all [Expr.Proper, Expr.parts]

theorem Phrase.itemsProper {phrase : Phrase} (proper : phrase.Proper) : ∀ part ∈ phrase.items, part.Proper := by
  cases phrase with
  | program body => exact List.forall_mem_map.mpr ((Stmt.properAll body).mp proper)
  | function kind decl =>
    obtain ⟨name, params, body, line⟩ := decl
    exact List.forall_mem_map.mpr ((Stmt.properAll body).mp proper.2)
  | expr e => exact List.forall_mem_map.mpr (Expr.partsProper proper)
  | stmt s =>
    cases s with
    | block body => exact List.forall_mem_map.mpr ((Stmt.properAll body).mp proper)
    | ifElse condition thenBranch elseBranch =>
      cases elseBranch <;> simp_all [Phrase.Proper, Stmt.Proper, Phrase.items]
    | returnStmt keyword value => cases value <;> simp_all [Phrase.Proper, Stmt.Proper, Phrase.items]
    | _ => simp_all [Phrase.Proper, Stmt.Proper, Phrase.items]

inductive Phrase.Inside (address : Address) (place : Place) : Phrase → Step → Place → Phrase → Prop where
  | item {phrase part index place'}
      (found : ((phrase.inside address place).thread phrase.items)[index]? = some (place', part)) :
      Inside address place phrase (.item index) place' part
  | initializer {name initializer} :
      Inside address place (.stmt (.varDecl name (some initializer))) .initializer (place.after (declare name))
        (.expr initializer)
  | declared {name params body line} :
      Inside address place (.stmt (.funDecl ⟨some name, params, body, line⟩)) .function (place.named name)
        (.function .function ⟨some name, params, body, line⟩)
  | lambda {decl} : Inside address place (.expr (.lambda decl)) .function place (.function .lambda decl)
  | superclass {name superclass methods classMethods} :
      Inside address place (.stmt (.classDecl ⟨name, some superclass, methods, classMethods⟩)) .superclass
        ((place.inClass.named name).after (checkSuperclass name superclass)) (.expr superclass)
  | method {decl f index place'} (member : decl.methods[index]? = some f)
      (found : ((place.ofClass address .receiver decl).thread
        (decl.methods.map fun f => .function f.methodContext f))[index]? = some (place', .function f.methodContext f)) :
      Inside address place (.stmt (.classDecl decl)) (.method index) place' (.function f.methodContext f)
  | classMethod {decl f index place'} (member : decl.classMethods[index]? = some f)
      (found : (((place.ofClass address .classSide decl).after (FunctionDecl.resolveMethods decl.methods)).thread
        (decl.classMethods.map (.function .classMethod)))[index]? = some (place', .function .classMethod f)) :
      Inside address place (.stmt (.classDecl decl)) (.classMethod index) place' (.function .classMethod f)

theorem partInside {address : Address} {place place' : Place} {phrase part : Phrase} {step : Step}
    (inside : phrase.part? address place step = some (place', part)) :
    Phrase.Inside address place phrase step place' part := by
  unfold Phrase.part? at inside
  split at inside
  · exact .item inside
  · cases inside
    exact .initializer
  · cases inside
    exact .declared
  · cases inside
    exact .lambda
  · cases inside
    exact .superclass
  · obtain ⟨f, member, rfl⟩ := Option.map_eq_some_iff.mp ((List.getElem?_map ..).symm.trans (Place.threadFound inside).1)
    exact .method member inside
  · obtain ⟨f, member, rfl⟩ := Option.map_eq_some_iff.mp ((List.getElem?_map ..).symm.trans (Place.threadFound inside).1)
    exact .classMethod member inside
  · cases inside

theorem Phrase.partProper {address : Address} {place place' : Place} {phrase part : Phrase} {step : Step}
    (proper : phrase.Proper) (inside : phrase.part? address place step = some (place', part)) : part.Proper := by
  cases partInside inside with
  | item found => exact Phrase.itemsProper proper part (List.mem_of_getElem? (Place.threadFound found).1)
  | initializer => exact proper.2
  | declared => exact proper.2
  | lambda => exact proper
  | superclass =>
    obtain ⟨name, rfl, spelled⟩ := proper.1 _ rfl
    exact ⟨spelled, rfl⟩
  | @method decl f _ _ member =>
    obtain ⟨name, superclass, methods, classMethods⟩ := decl
    exact (FunctionDecl.properAll methods).mp proper.2.1.1 f (List.mem_of_getElem? member)
  | @classMethod decl f _ _ member =>
    obtain ⟨name, superclass, methods, classMethods⟩ := decl
    exact (FunctionDecl.properAll classMethods).mp proper.2.1.2 f (List.mem_of_getElem? member)

theorem locatedProper {programs : List Program} {address : Address} {place : Place} {phrase : Phrase}
    (proper : ∀ p ∈ programs, Stmt.ProperAll p) (located : Located programs address place phrase) :
    phrase.Proper := by
  induction located with
  | program here => exact proper _ (List.mem_of_getElem? here)
  | part outer inside ih => exact Phrase.partProper ih inside

theorem expressionsUndeclared (es : List Expr) (index : Nat) :
    ((es.map Phrase.expr).take index).flatMap Phrase.declares = [] := by
  rw [List.flatMap_eq_nil_iff]
  intro part member
  obtain ⟨_, _, rfl⟩ := List.mem_map.mp (List.mem_of_mem_take member)
  rfl

theorem statementNames {body : List Stmt} {part : Phrase} (member : part ∈ body.map Phrase.stmt) :
    ∀ name ∈ part.declares, name ∈ declaredNames body := by
  obtain ⟨s, inBody, rfl⟩ := List.mem_map.mp member
  exact fun name here => List.mem_flatMap.mpr ⟨s, inBody, here⟩

theorem branchNames {s : Stmt} {part : Phrase} (noBlock : ∀ body, s ≠ .block body)
    (member : part ∈ (Phrase.stmt s).items) : ∀ name ∈ part.declares, name ∈ s.declares := by
  intro name here
  cases s with
  | block body => exact absurd rfl (noBlock body)
  | ifElse condition thenBranch elseBranch =>
    cases elseBranch with
    | none =>
      obtain rfl | rfl : part = .expr condition ∨ part = .stmt thenBranch := by
        simpa [Phrase.items] using member
      · cases here
      · exact here
    | some elseBranch =>
      obtain rfl | rfl | rfl : part = .expr condition ∨ part = .stmt thenBranch ∨ part = .stmt elseBranch := by
        simpa [Phrase.items] using member
      · cases here
      · exact List.mem_append_left _ here
      · exact List.mem_append_right _ here
  | whileLoop condition body =>
    obtain rfl | rfl : part = .expr condition ∨ part = .stmt body := by simpa [Phrase.items] using member
    · cases here
    · exact here
  | returnStmt keyword value =>
    cases value with
    | none => cases member
    | some value =>
      cases List.mem_singleton.mp member
      cases here
  | expression value =>
    cases List.mem_singleton.mp member
    cases here
  | print value =>
    cases List.mem_singleton.mp member
    cases here
  | varDecl name initializer => cases member
  | funDecl decl => cases member
  | classDecl decl => cases member

def Stmt.Declaring : Stmt → Prop
  | .varDecl _ _ => True
  | .funDecl _ => True
  | .classDecl _ => True
  | _ => False

theorem Stmt.undeclared {s : Stmt} (proper : s.Proper) (plain : ¬ s.Declaring) : s.declares = [] := by
  cases s with
  | varDecl name initializer => exact absurd trivial plain
  | funDecl decl => exact absurd trivial plain
  | classDecl decl => exact absurd trivial plain
  | ifElse condition thenBranch elseBranch =>
    cases elseBranch with
    | none => exact proper.2.2
    | some elseBranch => simp only [Stmt.declares, proper.2.2.1, proper.2.2.2.2, List.append_nil]
  | whileLoop condition body => exact proper.2.2
  | _ => rfl

def Phrase.Plain : Phrase → Prop
  | .expr _ => True
  | .stmt s => ∀ body, s ≠ .block body
  | _ => False

theorem Phrase.plainInside {phrase : Phrase} (plain : phrase.Plain) (address : Address) (place : Place) :
    (phrase.inside address place).sites = place.sites ∧
    (phrase.inside address place).context.scopes = place.context.scopes ∧
    (phrase.inside address place).context.function = place.context.function := by
  cases phrase with
  | program body => exact plain.elim
  | function kind decl => exact plain.elim
  | expr e => exact ⟨rfl, rfl, rfl⟩
  | stmt s =>
    cases s with
    | block body => exact absurd rfl (plain body)
    | returnStmt keyword value =>
      cases value with
      | none => exact ⟨rfl, rfl, rfl⟩
      | some value =>
        have checked := (steadyCheckReturn keyword place.context).trans
          (steadyCheckReturnValue keyword ((checkReturn keyword).after place.context))
        exact ⟨rfl, checked.scopes.trans (introduceNone _), checked.function⟩
    | _ => exact ⟨rfl, rfl, rfl⟩

theorem locatedNames {programs : List Program} {address : Address} {place : Place} {phrase : Phrase} {site : Site}
    (located : Located programs address place phrase) (innermost : place.sites.head? = some site) :
    ∀ name ∈ phrase.declares, name ∈ siteNames programs site := by
  induction located with
  | program here => cases innermost
  | @part address place phrase step place' part outer inside ih =>
    cases partInside inside with
    | item found =>
      obtain ⟨there, sites, _⟩ := Place.threadFound found
      have member := List.mem_of_getElem? there
      rw [sites] at innermost
      intro name here
      cases phrase with
      | program body => exact ih innermost name (statementNames member name here)
      | function kind decl =>
        cases innermost
        simp only [siteNames, outer.locate]
        exact statementNames member name here
      | expr e =>
        obtain ⟨e, _, rfl⟩ := List.mem_map.mp member
        cases here
      | stmt s =>
        by_cases isBlock : ∃ body, s = .block body
        · obtain ⟨body, rfl⟩ := isBlock
          cases innermost
          simp only [siteNames, outer.locate]
          exact statementNames member name here
        · have noBlock : ∀ body, s ≠ .block body := fun body same => isBlock ⟨body, same⟩
          have plain : (Phrase.stmt s).Plain := noBlock
          rw [(Phrase.plainInside plain address place).1] at innermost
          exact ih innermost name (branchNames noBlock member name here)
    | _ => exact nofun

end Treewalk
