import Treewalk.Proofs.Places.Located
import Treewalk.Proofs.Places.Entered

/-! Scopes as a reader of the program sees them. All that is defined here is about where things stand in the tree:
which phrase an address leads to, which scopes are around it, what comes before it, and which declarations stand in a
scope. No walk takes part in it. -/
namespace Treewalk

def Phrase.child? : Phrase → Step → Option Phrase
  | phrase, .item index => phrase.items[index]?
  | .stmt (.varDecl _ (some initializer)), .initializer => some (.expr initializer)
  | .stmt (.funDecl ⟨some name, params, body, line⟩), .function =>
    some (.function .function ⟨some name, params, body, line⟩)
  | .expr (.lambda decl), .function => some (.function .lambda decl)
  | .stmt (.classDecl ⟨_, some superclass, _, _⟩), .superclass => some (.expr superclass)
  | .stmt (.classDecl decl), .method index => (decl.methods.map fun f => .function f.methodContext f)[index]?
  | .stmt (.classDecl decl), .classMethod index => (decl.classMethods.map (.function .classMethod))[index]?
  | _, _ => none

def phraseAt (programs : List Program) : Address → Option Phrase
  | [] => none
  | [.program index] => programs[index]?.map .program
  | step :: address => do (← phraseAt programs address).child? step

def Phrase.opens (address : Address) : Phrase → Step → List Site
  | .stmt (.block _), .item _ => [⟨address, .block⟩]
  | .function _ _, .item _ => [⟨address, .body⟩, ⟨address, .parameters⟩]
  | .stmt (.classDecl _), .method _ => [⟨address, .receiver⟩]
  | .stmt (.classDecl _), .classMethod _ => [⟨address, .classSide⟩]
  | _, _ => []

def opened (programs : List Program) (address : Address) (step : Step) : List Site :=
  match phraseAt programs address with
  | some phrase => phrase.opens address step
  | none => []

/- The scopes around what stands at an address, innermost first. The globals are no scope. -/
def enclosing (programs : List Program) : Address → List Site
  | [] => []
  | step :: address => opened programs address step ++ enclosing programs address

def nearest (programs : List Program) (kind : Phrase → Bool) : Address → Option Address
  | [] => none
  | _ :: address => if (phraseAt programs address).any kind then some address else nearest programs kind address

def Phrase.isFunction : Phrase → Bool
  | .function _ _ => true
  | _ => false

def Phrase.isClass : Phrase → Bool
  | .stmt (.classDecl _) => true
  | _ => false

/- The order of the parts of one phrase. Methods for instances come before those of the class itself. -/
def Step.Before : Step → Step → Prop
  | .item i, .item j => i < j
  | .superclass, .method _ => True
  | .superclass, .classMethod _ => True
  | .method i, .method j => i < j
  | .method _, .classMethod _ => True
  | .classMethod i, .classMethod j => i < j
  | _, _ => False

/- What stands at the first address starts before what stands at the second: it is around it, or they are in two
parts of one phrase, in this order. The declarations of a scope that is around a phrase are all in one list with it,
and lists are in the order of the text. -/
def Address.Before (first second : Address) : Prop :=
  (∃ inner, inner ≠ [] ∧ second = inner ++ first) ∨
  ∃ common step step' inner inner', Step.Before step step' ∧ first = inner ++ step :: common ∧
    second = inner' ++ step' :: common

/- A phrase, or one of several things that a phrase says itself before its parts: a function declares one parameter
after another. -/
structure Mark where
  address : Address
  rank : Nat
  deriving DecidableEq, Repr

def Mark.Before (first second : Mark) : Prop :=
  Address.Before first.address second.address ∨ (first.address = second.address ∧ first.rank < second.rank)

def Phrase.declared? : Phrase → Option Ident
  | .stmt (.varDecl name _) => some name
  | .stmt (.funDecl decl) => decl.name
  | .stmt (.classDecl decl) => some decl.name
  | _ => none

/- The declarations of a scope: those that no other scope separates from it. -/
inductive Declares (programs : List Program) : Site → Mark → Ident → Prop where
  | statement {address phrase ident site} (here : phraseAt programs address = some phrase)
      (named : phrase.declared? = some ident) (innermost : (enclosing programs address).head? = some site) :
      Declares programs site ⟨address, 0⟩ ident
  | parameter {address kind decl index ident} (here : phraseAt programs address = some (.function kind decl))
      (named : decl.params[index]? = some ident) : Declares programs ⟨address, .parameters⟩ ⟨address, index⟩ ident

def DeclaredBefore (programs : List Program) (site : Site) (name : String) (mark : Mark) : Prop :=
  ∃ earlier ident, Declares programs site earlier ident ∧ ident.name = name ∧ earlier.Before mark

/- Inside the initializer of a local variable of this name, with no function in between; the variable is the first of
its name in its scope. -/
def InItself (programs : List Program) (address : Address) (name : String) : Prop :=
  ∃ inner outer ident initializer site, address = inner ++ .initializer :: outer ∧ .function ∉ inner ∧
    phraseAt programs outer = some (.stmt (.varDecl ident (some initializer))) ∧ ident.name = name ∧
    (enclosing programs outer).head? = some site ∧ ¬ DeclaredBefore programs site name ⟨outer, 0⟩

section Order

theorem Step.notBefore (step : Step) : ¬ step.Before step := by
  cases step <;> simp [Step.Before]

theorem beforeOutside (inner address : Address) : ¬ Address.Before (inner ++ address) address := by
  intro before
  obtain ⟨between, more, same⟩ | ⟨common, step, step', ahead, behind, less, first, second⟩ := before
  · have lengths := congrArg List.length same
    have positive := List.length_pos_iff.mpr more
    simp only [List.length_append] at lengths
    omega
  · rw [second, ← List.append_assoc] at first
    obtain ⟨_, same⟩ := List.append_inj' first rfl
    cases same
    exact step.notBefore less

theorem Mark.notBefore (mark : Mark) : ¬ mark.Before mark := by
  intro before
  cases before with
  | inl before => exact beforeOutside [] mark.address before
  | inr both => exact Nat.lt_irrefl _ both.2

theorem beforeStep {first address : Address} {step : Step} : Address.Before first (step :: address) ↔
    first = address ∨ Address.Before first address ∨
      ∃ inner step', Step.Before step' step ∧ first = inner ++ step' :: address := by
  constructor
  · intro before
    obtain ⟨inner, more, same⟩ | ⟨common, earlier, later, ahead, behind, less, rfl, same⟩ := before
    · cases inner with
      | nil => exact absurd rfl more
      | cons last inner =>
        obtain ⟨_, rfl⟩ := List.cons.inj same
        by_cases empty : inner = []
        · subst empty
          exact .inl rfl
        · exact .inr (.inl (.inl ⟨inner, empty, rfl⟩))
    · cases behind with
      | nil =>
        obtain ⟨rfl, rfl⟩ := List.cons.inj same
        exact .inr (.inr ⟨ahead, earlier, less, rfl⟩)
      | cons last behind =>
        obtain ⟨_, rfl⟩ := List.cons.inj same
        exact .inr (.inl (.inr ⟨common, earlier, later, ahead, behind, less, rfl, rfl⟩))
  · intro either
    obtain rfl | (⟨inner, more, rfl⟩ | ⟨common, earlier, later, ahead, behind, less, rfl, rfl⟩) |
      ⟨inner, earlier, less, rfl⟩ := either
    · exact .inl ⟨[step], List.cons_ne_nil _ _, rfl⟩
    · exact .inl ⟨step :: inner, List.cons_ne_nil _ _, rfl⟩
    · exact .inr ⟨common, earlier, later, ahead, step :: behind, less, rfl, rfl⟩
    · exact .inr ⟨address, earlier, step, inner, [], less, rfl, rfl⟩

theorem beforeItem {address : Address} {i j : Nat} :
    Address.Before (.item i :: address) (.item j :: address) ↔ i < j := by
  rw [beforeStep]
  constructor
  · intro either
    obtain same | before | ⟨inner, step, less, same⟩ := either
    · exact absurd same (List.cons_ne_self _ _)
    · exact absurd before (beforeOutside [.item i] address)
    · obtain ⟨_, same⟩ := List.append_inj' (show [] ++ .item i :: address = inner ++ step :: address from same) rfl
      cases same
      exact less
  · exact fun less => .inr (.inr ⟨[], .item i, less, rfl⟩)

theorem beforeInside (step : Step) (address : Address) : Address.Before address (step :: address) :=
  beforeStep.mpr (.inl rfl)

end Order

section Tree
variable {programs : List Program} {address : Address} {place place' : Place} {phrase part : Phrase} {step : Step}

theorem threadPhrases (place : Place) (phrases : List Phrase) (index : Nat) :
    (place.thread phrases)[index]?.map Prod.snd = phrases[index]? := by
  induction phrases generalizing place index with
  | nil => rfl
  | cons first rest ih =>
    cases index with
    | zero => rfl
    | succ index => exact ih (place.after first.resolve) index

theorem partChild (address : Address) (place : Place) (phrase : Phrase) (step : Step) :
    (phrase.part? address place step).map Prod.snd = phrase.child? step := by
  cases step with
  | item index => exact threadPhrases _ phrase.items index
  | program index => cases phrase <;> rfl
  | initializer =>
    cases phrase with
    | stmt s =>
      cases s with
      | varDecl name initializer => cases initializer <;> rfl
      | _ => rfl
    | _ => rfl
  | function =>
    cases phrase with
    | stmt s =>
      cases s with
      | funDecl decl =>
        obtain ⟨name, params, body, line⟩ := decl
        cases name <;> rfl
      | _ => rfl
    | expr e => cases e <;> rfl
    | _ => rfl
  | superclass =>
    cases phrase with
    | stmt s =>
      cases s with
      | classDecl decl =>
        obtain ⟨name, superclass, methods, classMethods⟩ := decl
        cases superclass <;> rfl
      | _ => rfl
    | _ => rfl
  | method index =>
    cases phrase with
    | stmt s =>
      cases s with
      | classDecl decl => exact threadPhrases _ _ index
      | _ => rfl
    | _ => rfl
  | classMethod index =>
    cases phrase with
    | stmt s =>
      cases s with
      | classDecl decl => exact threadPhrases _ _ index
      | _ => rfl
    | _ => rfl

theorem childInside (child : phrase.child? step = some part) :
    ∃ place', Phrase.Inside [] .outermost phrase step place' part := by
  obtain ⟨⟨place', part⟩, inside, rfl⟩ := Option.map_eq_some_iff.mp ((partChild [] .outermost phrase step).trans child)
  exact ⟨place', partInside inside⟩

inductive FunctionStep (phrase : Phrase) (decl : FunctionDecl) : FunctionContext → Step → Prop where
  | declared : phrase = .stmt (.funDecl decl) → FunctionStep phrase decl .function .function
  | lambda : phrase = .expr (.lambda decl) → FunctionStep phrase decl .lambda .function
  | method {index} : phrase.isClass = true → FunctionStep phrase decl decl.methodContext (.method index)
  | classMethod {index} : phrase.isClass = true → FunctionStep phrase decl .classMethod (.classMethod index)

theorem childCases (child : phrase.child? step = some part) :
    (∃ s, part = .stmt s) ∨ (∃ e, part = .expr e) ∨
    ∃ kind decl, part = .function kind decl ∧ FunctionStep phrase decl kind step := by
  obtain ⟨_, inside⟩ := childInside child
  cases inside with
  | item found =>
    obtain isStmt | isExpr := itemPlain (List.mem_of_getElem? child)
    · exact .inl isStmt
    · exact .inr (.inl isExpr)
  | initializer => exact .inr (.inl ⟨_, rfl⟩)
  | declared => exact .inr (.inr ⟨_, _, rfl, .declared rfl⟩)
  | lambda => exact .inr (.inr ⟨_, _, rfl, .lambda rfl⟩)
  | superclass => exact .inr (.inl ⟨_, rfl⟩)
  | method => exact .inr (.inr ⟨_, _, rfl, .method rfl⟩)
  | classMethod => exact .inr (.inr ⟨_, _, rfl, .classMethod rfl⟩)

theorem phraseStep (programs : List Program) (step next : Step) (rest : Address) :
    phraseAt programs (step :: next :: rest) = (phraseAt programs (next :: rest)).bind (·.child? step) := by
  cases step <;> rfl

theorem Located.phraseAt (located : Located programs address place phrase) : phraseAt programs address = some phrase := by
  induction located with
  | program here => simp [Treewalk.phraseAt, here]
  | @part address place phrase step place' part outer inside ih =>
    obtain ⟨next, rest, rfl⟩ := locateNonempty outer.locate
    rw [phraseStep, ih, Option.bind_some, ← partChild (next :: rest) place, inside]
    rfl

theorem locatedAt (here : phraseAt programs address = some phrase) : ∃ place, Located programs address place phrase := by
  induction address generalizing phrase with
  | nil => cases here
  | cons step address ih =>
    cases address with
    | nil =>
      cases step with
      | program index =>
        obtain ⟨body, found, rfl⟩ := Option.map_eq_some_iff.mp here
        exact ⟨_, .program found⟩
      | _ => cases here
    | cons next rest =>
      rw [phraseStep] at here
      obtain ⟨whole, above, child⟩ := Option.bind_eq_some_iff.mp here
      obtain ⟨place, located⟩ := ih above
      rw [← partChild (next :: rest) place] at child
      obtain ⟨⟨place', part⟩, inside, rfl⟩ := Option.map_eq_some_iff.mp child
      exact ⟨place', .part located inside⟩

theorem phraseLocated (programs : List Program) (address : Address) :
    phraseAt programs address = (locate programs address).map Prod.snd := by
  cases found : locate programs address with
  | some found' => exact (locatedOf found).phraseAt
  | none =>
    cases here : Treewalk.phraseAt programs address with
    | none => rfl
    | some phrase =>
      obtain ⟨place, located⟩ := locatedAt here
      cases found.symm.trans located.locate

theorem childPart (inside : phrase.part? address place step = some (place', part)) :
    phrase.child? step = some part := by
  rw [← partChild address place, inside, Option.map_some]

theorem programAlone {body : Program} (located : Located programs address place (.program body)) :
    ∃ index, address = [.program index] ∧ place = .outermost := by
  generalize same : Phrase.program body = phrase at located
  cases located with
  | program here => exact ⟨_, rfl, rfl⟩
  | part outer inside =>
    subst same
    obtain ⟨_, isStmt⟩ | ⟨_, isExpr⟩ | ⟨_, _, isFunction, _⟩ := childCases (childPart inside)
    · cases isStmt
    · cases isExpr
    · cases isFunction

theorem Located.opened (located : Located programs address place phrase) (step : Step) :
    opened programs address step = phrase.opens address step := by
  simp only [Treewalk.opened, located.phraseAt]

theorem opensItem (i j : Nat) : phrase.opens address (.item i) = phrase.opens address (.item j) := by
  cases phrase with
  | stmt s => cases s <;> rfl
  | _ => rfl

theorem partSites (inside : phrase.part? address place step = some (place', part)) :
    place'.sites = phrase.opens address step ++ place.sites := by
  cases partInside inside with
  | item found =>
    rw [(Place.threadFound found).2.1]
    cases phrase with
    | stmt s =>
      cases s with
      | returnStmt keyword value => cases value <;> rfl
      | _ => rfl
    | _ => rfl
  | method _ found => exact (memberPlace found).1
  | classMethod _ found => exact (memberPlace found).1
  | _ => rfl

theorem locatedSites (located : Located programs address place phrase) : place.sites = enclosing programs address := by
  induction located with
  | program here => rfl
  | part outer inside ih =>
    rw [partSites inside, ih, enclosing, outer.opened]

theorem openedHere {site : Site} (member : site ∈ opened programs address step) : site.opener = address := by
  unfold opened at member
  split at member
  · unfold Phrase.opens at member
    split at member <;> simp at member
    · rw [member]
    · obtain rfl | rfl := member <;> rfl
    · rw [member]
    · rw [member]
  · exact absurd member List.not_mem_nil

theorem openerAround {site : Site} (member : site ∈ enclosing programs address) :
    ∃ inner, inner ≠ [] ∧ address = inner ++ site.opener := by
  induction address with
  | nil => exact absurd member List.not_mem_nil
  | cons step address ih =>
    obtain here | outside := List.mem_append.mp member
    · exact ⟨[step], List.cons_ne_nil _ _, congrArg (List.cons step) (openedHere here).symm⟩
    · obtain ⟨inner, more, same⟩ := ih outside
      exact ⟨step :: inner, List.cons_ne_nil _ _, congrArg (List.cons step) same⟩

end Tree

section Declarations
variable {programs : List Program} {address : Address} {phrase part : Phrase} {step : Step} {ident : Ident}

theorem declaredName (named : part.declared? = some ident) : ident.name ∈ part.declares := by
  cases part with
  | stmt s =>
    cases s with
    | varDecl name initializer =>
      cases named
      exact List.mem_cons_self
    | funDecl decl =>
      obtain ⟨name, params, body, line⟩ := decl
      cases named
      exact List.mem_cons_self
    | classDecl decl =>
      cases named
      exact List.mem_cons_self
    | _ => cases named
  | _ => cases named

theorem undeclaring {s : Stmt} (plain : ¬ s.Declaring) : (Phrase.stmt s).declared? = none := by
  cases s with
  | varDecl name initializer => exact absurd trivial plain
  | funDecl decl => exact absurd trivial plain
  | classDecl decl => exact absurd trivial plain
  | _ => rfl

theorem undeclaringItems {s : Stmt} (member : part ∈ (Phrase.stmt s).items) : ¬ s.Declaring := by
  intro declaring
  cases s with
  | varDecl name initializer => exact absurd member List.not_mem_nil
  | funDecl decl => exact absurd member List.not_mem_nil
  | classDecl decl => exact absurd member List.not_mem_nil
  | _ => exact declaring

def Phrase.Lists : Phrase → Prop
  | .program _ => True
  | .stmt (.block _) => True
  | .function _ _ => True
  | _ => False

theorem declaredListed (proper : phrase.Proper) (child : phrase.child? step = some part)
    (named : part.declared? = some ident) : phrase.Lists ∧ ∃ index, step = .item index := by
  obtain ⟨_, inside⟩ := childInside child
  cases inside with
  | @item _ _ index _ found =>
    refine ⟨?_, index, rfl⟩
    have member := List.mem_of_getElem? child
    cases phrase with
    | program body => trivial
    | function kind decl => trivial
    | expr e =>
      obtain ⟨e, _, rfl⟩ := List.mem_map.mp member
      cases named
    | stmt s =>
      by_cases isBlock : ∃ body, s = .block body
      · obtain ⟨body, rfl⟩ := isBlock
        trivial
      · have names := branchNames (fun body same => isBlock ⟨body, same⟩) member ident.name (declaredName named)
        rw [Stmt.undeclared proper (undeclaringItems member)] at names
        exact absurd names List.not_mem_nil
  | _ => cases named

theorem declaredSite (proper : ∀ p ∈ programs, Stmt.ProperAll p) (here : phraseAt programs address = some phrase)
    (named : phrase.declared? = some ident) {site : Site} (innermost : (enclosing programs address).head? = some site) :
    ∃ index, address = .item index :: site.opener ∧ (site.role = .block ∨ site.role = .body) := by
  obtain ⟨place, located⟩ := locatedAt here
  cases located with
  | program found => cases named
  | @part address place whole step place' part outer inside =>
    obtain ⟨lists, index, rfl⟩ := declaredListed (locatedProper proper outer) (childPart inside) named
    rw [enclosing, outer.opened] at innermost
    cases whole with
    | program body =>
      obtain ⟨_, rfl, _⟩ := programAlone outer
      cases innermost
    | function kind decl =>
      cases innermost
      exact ⟨index, rfl, .inr rfl⟩
    | expr e => exact lists.elim
    | stmt s =>
      cases s with
      | block body =>
        cases innermost
        exact ⟨index, rfl, .inl rfl⟩
      | _ => exact lists.elim

end Declarations

end Treewalk
