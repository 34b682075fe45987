import Treewalk.Proofs.Places.Entered

/-! Slots. A name with a slot is declared as many scopes out as the slot says, and in no scope before. Its
declaration is complete there unless the use is inside the initializer of the name itself; what `this` stands for is
there unless the nearest class shows its own side. -/
namespace Treewalk

open Walk

def Phrase.local? : Phrase → Option (Ident × Nat)
  | .expr (.var name depth) => depth.map (name, ·)
  | .expr (.assign name _ depth) => depth.map (name, ·)
  | .expr (.this keyword depth) => depth.map (keyword, ·)
  | _ => none

theorem getThen (k : ScopeContext → Walk α) (c : ScopeContext) : (get >>= k) c = k c c := rfl

theorem slotResult (name : Ident) (c : ScopeContext) :
    (slot name none).result c = c.scopes.findIdx? (·.contains name.name) := by
  unfold slot result
  rw [getThen]
  cases c.scopes.findIdx? (·.contains name.name) <;> rfl

theorem thisSlotResult {keyword : Ident} {c : ScopeContext} {depth : Nat}
    (h : (thisSlot keyword none).result c = some depth) :
    c.inClass = true ∧ c.function ≠ .classMethod ∧ c.scopes.findIdx? (·.contains keyword.name) = some depth := by
  change Prod.fst ((if !c.inClass then _ else if c.function == .classMethod then _ else _ : Walk Depth) c) = _ at h
  split at h
  · cases h
  · rename_i inside
    split at h
    · cases h
    · rename_i other
      have here := slotResult keyword c
      exact ⟨by simpa using inside, by simpa using other, here.symm.trans h⟩

theorem resolvedVar (name : Ident) (c : ScopeContext) : (Expr.var name none).resolve.result c =
    .var name (c.scopes.findIdx? (·.contains name.name)) := by
  have here := slotResult name ((checkInitialized name).after c)
  rw [(steadyCheckInitialized name c).scopes, introduceNone] at here
  exact congrArg (Expr.var name) here

theorem resolvedAssign (name : Ident) (value : Expr) (c : ScopeContext) :
    (Expr.assign name value none).resolve.result c =
      .assign name (value.resolve.result c) (c.scopes.findIdx? (·.contains name.name)) := by
  have here := slotResult name (value.resolve.after c)
  rw [(value.resolveSteady c).scopes, introduceNone] at here
  exact congrArg (Expr.assign name (value.resolve.result c)) here

inductive Uses (c : ScopeContext) (name : Ident) : Phrase → Prop where
  | var (other : name.name ≠ "this") : Uses c name (.expr (.var name none))
  | assign (value : Expr) (other : name.name ≠ "this") : Uses c name (.expr (.assign name value none))
  | this (same : name.name = "this") (direct : c.function ≠ .classMethod) : Uses c name (.expr (.this name none))

theorem localUse {phrase : Phrase} {c : ScopeContext} {name : Ident} {depth : Nat} (proper : phrase.Proper)
    (h : (phrase.resolve.result c).local? = some (name, depth)) :
    Uses c name phrase ∧ c.scopes.findIdx? (·.contains name.name) = some depth := by
  cases phrase with
  | program body => cases h
  | stmt s => cases h
  | function kind decl => cases h
  | expr e =>
    cases e with
    | var ident old =>
      obtain ⟨other, rfl⟩ := proper
      have h : (Phrase.expr ((Expr.var ident none).resolve.result c)).local? = some (name, depth) := h
      rw [resolvedVar] at h
      obtain ⟨_, here, same⟩ := Option.map_eq_some_iff.mp h
      cases same
      exact ⟨.var other, here⟩
    | assign ident value old =>
      obtain ⟨other, rfl, _⟩ := proper
      have h : (Phrase.expr ((Expr.assign ident value none).resolve.result c)).local? = some (name, depth) := h
      rw [resolvedAssign] at h
      obtain ⟨_, here, same⟩ := Option.map_eq_some_iff.mp h
      cases same
      exact ⟨.assign value other, here⟩
    | this keyword old =>
      obtain ⟨spelled, rfl⟩ := proper
      obtain ⟨_, here, same⟩ := Option.map_eq_some_iff.mp h
      cases same
      obtain ⟨_, direct, counted⟩ := thisSlotResult here
      exact ⟨.this spelled direct, counted⟩
    | _ => cases h

theorem readComplete {name : Ident} {c : ScopeContext} {scope : Scope} {outer : List Scope}
    (clean : ((Phrase.expr (.var name none)).resolve.after c).errors = []) (scopes : c.scopes = scope :: outer) :
    scope.find? name.name ≠ some false := by
  intro incomplete
  have reported : (checkInitialized name).after c = (report name .readInOwnInitializer).after c := by
    unfold checkInitialized after
    rw [getThen]
    simp only [scopes, incomplete, beq_self_eq_true, if_true]
  have later := (steadySlot name none ((checkInitialized name).after c)).errors
  have clean : ((slot name none).after ((checkInitialized name).after c)).errors = [] := clean
  rw [clean, reported] at later
  have empty := List.prefix_nil.mp later
  exact List.cons_ne_nil _ _ (List.append_eq_nil_iff.mp empty).2

section
variable {programs : List Program} {address : Address} {place : Place} {phrase : Phrase}

theorem expressionPart {place' : Place} {part : Phrase} {step : Step} {e : Expr}
    (inside : (Phrase.expr e).part? address place step = some (place', part)) (plain : .function ≠ step) :
    (∃ e', part = .expr e') ∧ place'.context.scopes = place.context.scopes := by
  cases partInside inside with
  | item found =>
    obtain ⟨here, _, moved⟩ := Place.threadFound found
    obtain ⟨e', _, rfl⟩ := List.mem_map.mp (List.mem_of_getElem? here)
    have scopes := moved.scopes
    rw [Phrase.items, expressionsUndeclared, introduceNone] at scopes
    exact ⟨⟨e', rfl⟩, scopes⟩
  | lambda => exact absurd rfl plain

theorem initializerScopes {inner outer : Address} {place' : Place} {ident : Ident} {initializer : Expr}
    (located : Located programs (inner ++ .initializer :: outer) place phrase)
    (declaration : Located programs outer place' (.stmt (.varDecl ident (some initializer))))
    (plain : .function ∉ inner) :
    (∃ e, phrase = .expr e) ∧ place.context.scopes = ((declare ident).after place'.context).scopes := by
  induction inner generalizing place phrase with
  | nil =>
    cases located with
    | part around inside =>
      obtain ⟨rfl, rfl⟩ := around.unique declaration
      cases inside
      exact ⟨⟨initializer, rfl⟩, rfl⟩
  | cons step inner ih =>
    obtain ⟨other, others⟩ := not_or.mp (List.mem_cons.not.mp plain)
    obtain ⟨_, _, around, inside⟩ := located.around (by simp)
    obtain ⟨⟨e, rfl⟩, scopes⟩ := ih around others
    obtain ⟨isExpr, same⟩ := expressionPart inside other
    exact ⟨isExpr, same.trans scopes⟩

theorem declaredHead {c : ScopeContext} {sites : List Site} {site : Site} (name : Ident)
    (fits : List.Forall₂ (Fits programs address) sites c.scopes) (innermost : sites.head? = some site) :
    ∃ scope outer, ((declare name).after c).scopes = scope :: outer ∧ scope.contains name.name = true := by
  rw [declareAfter]
  cases h : c.scopes with
  | nil =>
    rw [h] at fits
    cases fits
    cases innermost
  | cons scope outer =>
    dsimp only
    split
    · rename_i known
      exact ⟨scope, outer, rfl, known⟩
    · refine ⟨_, outer, rfl, ?_⟩
      rw [Table.containsInsert, beq_self_eq_true, Bool.true_or]

/- A use of a name that is not complete is inside its own initializer, and is not a read unless it is inside a
function there. -/
theorem incompleteUse {name : Ident} {depth : Nat} {site : Site} {scope : Scope}
    (proper : ∀ p ∈ programs, Stmt.ProperAll p) (accepted : ∀ p ∈ programs, p.resolve.2 = [])
    (located : Located programs address place phrase) (uses : Uses place.context name phrase)
    (counted : place.context.scopes.findIdx? (·.contains name.name) = some depth)
    (siteThere : place.sites[depth]? = some site) (scopeThere : place.context.scopes[depth]? = some scope)
    (incomplete : scope.find? name.name = some false) :
    ∃ inner, InOwnInitializer programs address inner site name.name ∧
      (.function ∈ inner ∨ ∃ value, phrase = .expr (.assign name value none)) := by
  have fits : Fits programs address site scope := fitsAt (locatedFits located) siteThere scopeThere
  obtain ⟨inner, inside⟩ := fits.pending name.name incomplete
  refine ⟨inner, inside, ?_⟩
  obtain ⟨outer, place', ident, initializer, rfl, found, same, innermost⟩ := inside
  have declaration := locatedOf found
  cases uses with
  | assign value other => exact .inr ⟨value, rfl⟩
  | this spelled direct =>
    have proper : (Stmt.varDecl ident (some initializer)).Proper := locatedProper proper declaration
    exact absurd (same.trans spelled) proper.1
  | var other =>
    left
    by_contra noFunction
    obtain ⟨_, scopes⟩ := initializerScopes located declaration noFunction
    obtain ⟨head, rest, opened, declared⟩ := declaredHead ident (locatedFits declaration) innermost
    rw [opened] at scopes
    rw [scopes, List.findIdx?_cons, ← same, declared] at counted
    cases counted
    rw [scopes] at scopeThere
    cases scopeThere
    exact readComplete (locatedAccepted accepted located) scopes incomplete

theorem nearestClass {sites : List Site} {scopes : List Scope} {depth : Nat} {site : Site}
    (fits : List.Forall₂ (Fits programs address) sites scopes)
    (counted : scopes.findIdx? (·.contains "this") = some depth) (there : sites[depth]? = some site)
    (ofClass : site.role.ofClass = true) : sites.find? (·.role.ofClass) = some site := by
  induction fits generalizing depth with
  | nil => cases there
  | @cons first scope sites scopes here _ ih =>
    rw [List.findIdx?_cons] at counted
    split at counted
    · cases counted
      cases there
      exact List.find?_cons_of_pos ofClass
    · rename_i absent
      obtain ⟨depth', counted', rfl⟩ := Option.map_eq_some_iff.mp counted
      have other : first.role.ofClass = false := by
        rw [Bool.eq_false_iff]
        exact fun isClass => absent (here.receiver isClass)
      simp only [List.find?_cons, other]
      exact ih counted' there

theorem classSideUse {name : Ident} {depth : Nat} {site : Site} (located : Located programs address place phrase)
    (uses : Uses place.context name phrase)
    (counted : place.context.scopes.findIdx? (·.contains name.name) = some depth)
    (there : place.sites[depth]? = some site) (classSide : site.role = .classSide) (spelled : name.name = "this") :
    phrase = .expr (.this name none) ∧ ∃ inner, InClassMethod address inner ∧ .function ∈ inner := by
  cases uses with
  | var other => exact absurd spelled other
  | assign value other => exact absurd spelled other
  | this _ direct =>
    obtain ⟨opener, role⟩ := site
    cases (show role = .classSide from classSide)
    rw [spelled] at counted
    obtain ⟨inner, inside, between⟩ := locatedClassSide located (nearestClass (locatedFits located) counted there rfl)
    refine ⟨rfl, inner, inside, ?_⟩
    cases between with
    | inl function => exact function
    | inr surrounded => exact absurd surrounded direct

end

end Treewalk
