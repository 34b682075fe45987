import Treewalk.Proofs.Lexical.Scopes
import Treewalk.Proofs.Slots

/-! What the walk knows of the surroundings of a phrase: the kind of the nearest function, whether there is a class,
and which variable is incomplete. All three are what the tree says, however the walk came there. -/
namespace Treewalk

open Walk

section Contexts
variable {programs : List Program} {address : Address} {place place' : Place} {phrase part : Phrase} {step : Step}

theorem classSurrounded (place : Place) (address : Address) (role : Role) (decl : ClassDecl) :
    (place.ofClass address role decl).context.function = place.context.function ∧
    (place.ofClass address role decl).context.inClass = true := by
  have named := movesDeclaredAlone decl.name place.inClass.context
  have kept := ClassDecl.resolveSuperclassSteady decl.name decl.superclass (place.inClass.named decl.name).context
  exact ⟨kept.function.trans named.function, kept.inClass.trans named.inClass⟩

theorem insideSurrounded (address : Address) (place : Place) (phrase : Phrase) :
    (phrase.inside address place).context.function = phrase.surroundedBy place ∧
    (phrase.inside address place).context.inClass = place.context.inClass := by
  cases phrase with
  | function kind decl =>
    have parameters := movesDeclareAll decl.params ((place.inFunction kind).enter ⟨address, .parameters⟩ .empty).context
    exact ⟨parameters.function, parameters.inClass⟩
  | stmt s =>
    cases s with
    | returnStmt keyword value =>
      cases value with
      | none => exact ⟨rfl, rfl⟩
      | some value =>
        have checked := (steadyCheckReturn keyword place.context).trans
          (steadyCheckReturnValue keyword ((checkReturn keyword).after place.context))
        exact ⟨checked.function, checked.inClass⟩
    | _ => exact ⟨rfl, rfl⟩
  | _ => exact ⟨rfl, rfl⟩

theorem partSurrounded (inside : phrase.part? address place step = some (place', part)) :
    place'.context.function = phrase.surroundedBy place ∧
    place'.context.inClass = (phrase.isClass || place.context.inClass) := by
  cases partInside inside with
  | item found =>
    obtain ⟨here, _, moved⟩ := Place.threadFound found
    obtain ⟨function, inClass⟩ := insideSurrounded address place phrase
    have other : phrase.isClass = false := by
      cases phrase with
      | stmt s =>
        cases s with
        | classDecl decl => cases here
        | _ => rfl
      | _ => rfl
    rw [other, Bool.false_or]
    exact ⟨moved.function.trans function, moved.inClass.trans inClass⟩
  | initializer =>
    obtain ⟨function, inClass, _⟩ := declareKeeps _ place.context
    exact ⟨function, inClass⟩
  | @declared name =>
    have named := movesDeclaredAlone name place.context
    exact ⟨named.function, named.inClass⟩
  | lambda => exact ⟨rfl, rfl⟩
  | @superclass name superclass =>
    have checked := steadyCheckSuperclass name superclass (place.inClass.named name).context
    have named := movesDeclaredAlone name place.inClass.context
    exact ⟨checked.function.trans named.function, checked.inClass.trans named.inClass⟩
  | @method decl _ _ _ _ found =>
    have moved := (Place.threadFound found).2.2
    obtain ⟨function, inClass⟩ := classSurrounded place address .receiver decl
    exact ⟨moved.function.trans function, moved.inClass.trans inClass⟩
  | @classMethod decl _ _ _ _ found =>
    have moved := (Place.threadFound found).2.2
    have methods := FunctionDecl.resolveMethodsSteady decl.methods (place.ofClass address .classSide decl).context
    obtain ⟨function, inClass⟩ := classSurrounded place address .classSide decl
    exact ⟨moved.function.trans (methods.function.trans function), moved.inClass.trans (methods.inClass.trans inClass)⟩

inductive InFunction (programs : List Program) (address : Address) : FunctionContext → Prop where
  | outside (around : nearest programs Phrase.isFunction address = none) : InFunction programs address .none
  | inside {function kind decl} (around : nearest programs Phrase.isFunction address = some function)
      (there : phraseAt programs function = some (.function kind decl)) : InFunction programs address kind

theorem InFunction.moved {address' : Address} {kind : FunctionContext} (within : InFunction programs address kind)
    (same : nearest programs Phrase.isFunction address' = nearest programs Phrase.isFunction address) :
    InFunction programs address' kind := by
  cases within with
  | outside around => exact .outside (same.trans around)
  | inside around there => exact .inside (same.trans around) there

theorem nearestStep (here : phraseAt programs address = some phrase) (kind : Phrase → Bool) (step : Step) :
    nearest programs kind (step :: address) = if kind phrase then some address else nearest programs kind address := by
  simp only [nearest, here, Option.any_some]

theorem locatedFunction (located : Located programs address place phrase) :
    InFunction programs address place.context.function := by
  induction located with
  | program here => exact .outside rfl
  | @part address place phrase step place' part outer inside ih =>
    have around := nearestStep outer.phraseAt Phrase.isFunction step
    rw [(partSurrounded inside).1]
    cases phrase with
    | function kind decl => exact .inside around outer.phraseAt
    | _ => exact ih.moved around

theorem locatedInClass (located : Located programs address place phrase) :
    place.context.inClass = (nearest programs Phrase.isClass address).isSome := by
  induction located with
  | program here => rfl
  | @part address place phrase step place' part outer inside ih =>
    rw [(partSurrounded inside).2, nearestStep outer.phraseAt, ih]
    cases phrase.isClass <;> rfl

theorem functionReached {kind : FunctionContext} {decl : FunctionDecl}
    (here : phraseAt programs address = some (.function kind decl)) :
    ∃ step outer whole, address = step :: outer ∧ phraseAt programs outer = some whole ∧
      FunctionStep whole decl kind step := by
  obtain ⟨place, located⟩ := locatedAt here
  generalize same : Phrase.function kind decl = phrase at located
  cases located with
  | program found => cases same
  | @part outer place whole step place' part around inside =>
    subst same
    obtain ⟨_, isStmt⟩ | ⟨_, isExpr⟩ | ⟨_, _, isFunction, reached⟩ := childCases (childPart inside)
    · cases isStmt
    · cases isExpr
    · cases isFunction
      exact ⟨step, outer, whole, rfl, around.phraseAt, reached⟩

theorem outsideFunctions (located : Located programs address place phrase) :
    place.context.function = .none ↔ nearest programs Phrase.isFunction address = none := by
  have within := locatedFunction located
  generalize place.context.function = kind at within
  cases within with
  | outside around => exact iff_of_true rfl around
  | inside around there =>
    rw [around]
    obtain ⟨step, outer, whole, _, _, reached⟩ := functionReached there
    refine iff_of_false ?_ nofun
    cases reached with
    | method ofClass =>
      unfold FunctionDecl.methodContext
      split <;> exact nofun
    | _ => exact nofun

theorem inClassMethod (located : Located programs address place phrase) :
    place.context.function = .classMethod ↔
      ∃ index outer, nearest programs Phrase.isFunction address = some (.classMethod index :: outer) := by
  have within := locatedFunction located
  generalize place.context.function = kind at within
  cases within with
  | outside around =>
    rw [around]
    exact iff_of_false nofun nofun
  | inside around there =>
    rw [around]
    obtain ⟨step, outer, whole, rfl, _, reached⟩ := functionReached there
    cases reached with
    | declared => simp
    | lambda => simp
    | method ofClass =>
      unfold FunctionDecl.methodContext
      split <;> simp
    | classMethod ofClass => simp

theorem nearestAround {kind : Phrase → Bool} {found : Address} (around : nearest programs kind address = some found) :
    ∃ inner whole, inner ≠ [] ∧ address = inner ++ found ∧ phraseAt programs found = some whole ∧ kind whole = true := by
  induction address with
  | nil => cases around
  | cons step address ih =>
    unfold nearest at around
    split at around
    · rename_i here
      cases around
      obtain ⟨whole, there, isKind⟩ := (Option.any_eq_true _ _).mp here
      exact ⟨[step], whole, List.cons_ne_nil _ _, rfl, there, isKind⟩
    · obtain ⟨inner, whole, _, rfl, others⟩ := ih around
      exact ⟨step :: inner, whole, List.cons_ne_nil _ _, rfl, others⟩

theorem nearestInside {kind : Phrase → Bool} {inner : Address} (inside : inner ≠ [])
    (here : phraseAt programs address = some phrase) (isKind : kind phrase = true) :
    (nearest programs kind (inner ++ address)).isSome = true := by
  induction inner with
  | nil => exact absurd rfl inside
  | cons step inner ih =>
    rw [List.cons_append, nearest]
    split
    · rfl
    · rename_i other
      refine ih ?_
      intro direct
      rw [direct, List.nil_append, here] at other
      exact other isKind

theorem classMethodInClass {index : Nat} {outer : Address}
    (around : nearest programs Phrase.isFunction address = some (.classMethod index :: outer)) :
    (nearest programs Phrase.isClass address).isSome = true := by
  obtain ⟨inner, function, _, rfl, there, isFunction⟩ := nearestAround around
  cases function with
  | function kind decl =>
    obtain ⟨step, outer', whole, same, above, reached⟩ := functionReached there
    cases same
    cases reached with
    | classMethod ofClass =>
      rw [List.append_cons]
      exact nearestInside (List.append_ne_nil_of_right_ne_nil inner (List.cons_ne_nil _ _)) above ofClass
  | _ => cases isFunction

theorem namedInit (decl : FunctionDecl) :
    decl.isInitializer = true ↔ decl.name.map Ident.name = some "init" := by
  obtain ⟨name, params, body, line⟩ := decl
  cases name with
  | none => simp [FunctionDecl.isInitializer, FunctionDecl.label]
  | some name => simp [FunctionDecl.isInitializer, FunctionDecl.label]

theorem inInitializer (located : Located programs address place phrase) :
    place.context.function = .initializer ↔
      ∃ index outer kind decl, nearest programs Phrase.isFunction address = some (.method index :: outer) ∧
        phraseAt programs (.method index :: outer) = some (.function kind decl) ∧
        decl.name.map Ident.name = some "init" := by
  have within := locatedFunction located
  generalize place.context.function = kind at within
  cases within with
  | outside around =>
    rw [around]
    exact iff_of_false nofun nofun
  | @inside function kind decl around there =>
    rw [around]
    obtain ⟨step, outer, whole, rfl, _, reached⟩ := functionReached there
    cases reached with
    | declared => simp
    | lambda => simp
    | classMethod ofClass => simp
    | @method index ofClass =>
      unfold FunctionDecl.methodContext
      split
      · rename_i initializer
        exact iff_of_true rfl ⟨index, outer, _, decl, rfl, there, (namedInit decl).mp initializer⟩
      · rename_i other
        refine iff_of_false nofun ?_
        intro named
        obtain ⟨_, _, _, _, same, there', named⟩ := named
        cases same
        cases there.symm.trans there'
        exact other ((namedInit decl).mpr named)

end Contexts

section Pending
variable {programs : List Program} {address : Address} {place : Place} {phrase : Phrase} {site : Site}

theorem phraseOutside {step : Step} (more : address ≠ []) (here : phraseAt programs (step :: address) = some phrase) :
    ∃ whole, phraseAt programs address = some whole ∧ whole.child? step = some phrase := by
  cases address with
  | nil => exact absurd rfl more
  | cons next rest =>
    rw [phraseStep] at here
    exact Option.bind_eq_some_iff.mp here

theorem phraseAround {inner : Address} (more : address ≠ [])
    (here : phraseAt programs (inner ++ address) = some phrase) : ∃ whole, phraseAt programs address = some whole := by
  induction inner generalizing phrase with
  | nil => exact ⟨phrase, here⟩
  | cons step inner ih =>
    obtain ⟨whole, there, _⟩ := phraseOutside (List.append_ne_nil_of_right_ne_nil inner more) here
    exact ih there

theorem innermostInside {inner : Address} {kind : FunctionContext} {decl : FunctionDecl} (inside : inner ≠ [])
    (function : phraseAt programs address = some (.function kind decl))
    (here : phraseAt programs (inner ++ address) = some phrase)
    (innermost : (enclosing programs (inner ++ address)).head? = some site) : address.length ≤ site.opener.length := by
  have more : address ≠ [] := by
    intro empty
    rw [empty] at function
    cases function
  induction inner generalizing phrase with
  | nil => exact absurd rfl inside
  | cons step inner ih =>
    rw [List.cons_append, enclosing] at innermost
    obtain ⟨whole, there, child⟩ := phraseOutside (List.append_ne_nil_of_right_ne_nil inner more) here
    cases fresh : opened programs (inner ++ address) step with
    | cons first rest =>
      rw [fresh] at innermost
      cases innermost
      have opener := openedHere (by rw [fresh]; exact List.mem_cons_self)
      rw [opener, List.length_append]
      omega
    | nil =>
      rw [fresh, List.nil_append] at innermost
      by_cases direct : inner = []
      · subst direct
        cases function.symm.trans there
        simp only [opened, function, List.nil_append] at fresh
        cases step <;> simp [Phrase.child?, Phrase.opens] at child fresh
      · exact ih direct there innermost

theorem functionChild {part : Phrase} (child : phrase.child? .function = some part) :
    ∃ kind decl, part = .function kind decl := by
  obtain ⟨_, inside⟩ := childInside child
  cases inside with
  | declared => exact ⟨_, _, rfl⟩
  | lambda => exact ⟨_, _, rfl⟩

theorem nothingBetween {inner outer : Address} (here : phraseAt programs (inner ++ outer) = some phrase)
    (notFunction : phrase.isFunction = false)
    (innermost : (enclosing programs (inner ++ outer)).head? = some site)
    (further : site.opener.length < outer.length) : .function ∉ inner := by
  intro member
  obtain ⟨inside, between, rfl⟩ := List.append_of_mem member
  rw [List.append_assoc, List.cons_append] at here innermost
  obtain ⟨function, there⟩ := phraseAround (List.cons_ne_nil _ _) here
  have more : between ++ outer ≠ [] := by
    intro empty
    rw [(List.append_eq_nil_iff.mp empty).2] at further
    exact Nat.not_lt_zero _ further
  obtain ⟨whole, _, child⟩ := phraseOutside more there
  obtain ⟨kind, decl, rfl⟩ := functionChild child
  by_cases direct : inside = []
  · subst direct
    cases there.symm.trans here
    cases notFunction
  · have nearer := innermostInside direct there here innermost
    rw [List.length_cons, List.length_append] at nearer
    omega

theorem pendingDirect (located : Located programs address place phrase) (notFunction : phrase.isFunction = false)
    {scope : Scope} {outside : List Scope} (scopes : place.context.scopes = scope :: outside) {name : String}
    (incomplete : scope.find? name = some false) :
    ∃ inner outer place' ident initializer site, address = inner ++ .initializer :: outer ∧ .function ∉ inner ∧
      Located programs outer place' (.stmt (.varDecl ident (some initializer))) ∧ ident.name = name ∧
      (enclosing programs outer).head? = some site := by
  have fits := locatedFits located
  have sites := locatedSites located
  rw [scopes] at fits
  cases all : place.sites with
  | nil =>
    rw [all] at fits
    cases fits
  | cons site others =>
    rw [all] at fits sites
    obtain ⟨first, _⟩ := List.forall₂_cons.mp fits
    obtain ⟨inner, outer, place', ident, initializer, rfl, found, named, innermost⟩ := first.pending name incomplete
    have declaration := locatedOf found
    rw [locatedSites declaration] at innermost
    have further : site.opener.length < (Step.initializer :: outer).length :=
      Nat.lt_succ_of_lt (openerShorter (List.mem_of_head? innermost))
    have direct := nothingBetween located.phraseAt notFunction (by rw [← sites]; rfl) further
    exact ⟨inner, outer, place', ident, initializer, site, rfl, direct, declaration, named, innermost⟩

/- A name is incomplete in the innermost scope only inside its own initializer, and there as long as no function is
entered. -/
theorem pendingRead (proper : ∀ p ∈ programs, Stmt.ProperAll p) {e : Expr}
    (located : Located programs address place (.expr e)) {scope : Scope} {outside : List Scope} {name : String}
    (scopes : place.context.scopes = scope :: outside) :
    scope.find? name = some false ↔ InItself programs address name := by
  constructor
  · intro incomplete
    obtain ⟨inner, outer, place', ident, initializer, site, rfl, direct, declaration, named, innermost⟩ :=
      pendingDirect located rfl scopes incomplete
    refine ⟨inner, outer, ident, initializer, site, rfl, direct, declaration.phraseAt, named, innermost, ?_⟩
    intro declared
    obtain ⟨scope', outside', scopes', knows⟩ := innermostKnows proper declaration innermost
    -- a duplicate changes no scope, so the name would have been incomplete before it, and then outside all functions
    have known : scope'.contains ident.name = true := by
      rw [named]
      exact (knows name).mpr (.inr declared)
    have same := (initializerScopes located declaration direct).2
    rw [declareAfter, scopes'] at same
    dsimp only at same
    rw [if_pos known, scopes] at same
    obtain ⟨rfl, _⟩ := List.cons.inj same
    obtain ⟨_, _, _, _, _, _, rfl, direct', around, _⟩ := pendingDirect declaration rfl scopes' incomplete
    obtain ⟨⟨_, isExpr⟩, _⟩ := initializerScopes declaration around direct'
    cases isExpr
  · intro inItself
    obtain ⟨inner, outer, ident, initializer, site, rfl, direct, there, named, innermost, first⟩ := inItself
    obtain ⟨place', declaration⟩ := locatedAt there
    obtain ⟨scope', outside', scopes', knows⟩ := innermostKnows proper declaration innermost
    have properDeclaration : (Stmt.varDecl ident (some initializer)).Proper := locatedProper proper declaration
    have unknown : ¬ scope'.contains ident.name = true := by
      rw [knows.named properDeclaration.1, named]
      exact first
    have same := (initializerScopes located declaration direct).2
    rw [declareAfter, scopes'] at same
    dsimp only at same
    rw [if_neg unknown, scopes] at same
    obtain ⟨rfl, _⟩ := List.cons.inj same
    rw [Table.findInsert, if_pos named.symm]

end Pending

end Treewalk
