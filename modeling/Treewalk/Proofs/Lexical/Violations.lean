import Treewalk.Proofs.Lexical.Surroundings

/-! Static violations, by what stands where in the tree, and what the walk reports at a phrase. The two are the same
at every phrase. -/
namespace Treewalk

open Walk

def Ident.error (name : Ident) (fault : ScopeFault) : ScopeError := ⟨name.line, name.name, fault⟩

inductive Violation (programs : List Program) : Mark → ScopeError → Prop where
  | duplicate {site mark ident} (declares : Declares programs site mark ident)
      (again : DeclaredBefore programs site ident.name mark) :
      Violation programs mark (ident.error .duplicateLocal)
  | ownInitializer {address name slot} (here : phraseAt programs address = some (.expr (.var name slot)))
      (inside : InItself programs address name.name) :
      Violation programs ⟨address, 0⟩ (name.error .readInOwnInitializer)
  | returnAtTopLevel {address keyword value}
      (here : phraseAt programs address = some (.stmt (.returnStmt keyword value)))
      (outside : nearest programs Phrase.isFunction address = none) :
      Violation programs ⟨address, 0⟩ (keyword.error .returnAtTopLevel)
  | valueFromInitializer {address keyword value index outer kind decl}
      (here : phraseAt programs address = some (.stmt (.returnStmt keyword (some value))))
      (around : nearest programs Phrase.isFunction address = some (.method index :: outer))
      (method : phraseAt programs (.method index :: outer) = some (.function kind decl))
      (named : decl.name.map Ident.name = some "init") :
      Violation programs ⟨address, 0⟩ (keyword.error .valueFromInitializer)
  | thisOutsideClass {address keyword slot} (here : phraseAt programs address = some (.expr (.this keyword slot)))
      (outside : nearest programs Phrase.isClass address = none) :
      Violation programs ⟨address, 0⟩ (keyword.error .thisOutsideClass)
  | thisInClassMethod {address keyword slot index outer}
      (here : phraseAt programs address = some (.expr (.this keyword slot)))
      (around : nearest programs Phrase.isFunction address = some (.classMethod index :: outer)) :
      Violation programs ⟨address, 0⟩ (keyword.error .thisInClassMethod)
  | inheritsFromItself {address name superclass slot methods classMethods}
      (here : phraseAt programs address =
        some (.stmt (.classDecl ⟨name, some (.var superclass slot), methods, classMethods⟩)))
      (same : superclass.name = name.name) :
      Violation programs ⟨address, 1⟩ (superclass.error .inheritsFromItself)

def note (rank : Nat) (name : Ident) (fault : ScopeFault) (wrong : Bool) : List (Nat × ScopeError) :=
  if wrong then [(rank, name.error fault)] else []

def taken (c : ScopeContext) (name : Ident) : Bool := c.scopes.head?.any (·.contains name.name)

def pending (c : ScopeContext) (name : Ident) : Bool := c.scopes.head?.any (·.find? name.name == some false)

def repeated (earlier : List Ident) : List Ident → List (Nat × ScopeError)
  | [] => []
  | name :: rest =>
    note earlier.length name .duplicateLocal (earlier.any (·.name == name.name)) ++ repeated (earlier ++ [name]) rest

def ownSuperclass (name : Ident) : Option Expr → List (Nat × ScopeError)
  | some (.var superclass _) => note 1 superclass .inheritsFromItself (superclass.name == name.name)
  | _ => []

def Phrase.own (c : ScopeContext) : Phrase → List (Nat × ScopeError)
  | .stmt (.varDecl name _) => note 0 name .duplicateLocal (taken c name)
  | .stmt (.funDecl ⟨some name, _, _, _⟩) => note 0 name .duplicateLocal (taken c name)
  | .stmt (.classDecl ⟨name, superclass, _, _⟩) =>
    note 0 name .duplicateLocal (taken c name) ++ ownSuperclass name superclass
  | .stmt (.returnStmt keyword value) =>
    note 0 keyword .returnAtTopLevel (c.function == .none) ++
      note 0 keyword .valueFromInitializer (value.isSome && c.function == .initializer)
  | .expr (.var name _) => note 0 name .readInOwnInitializer (pending c name)
  | .expr (.this keyword _) =>
    note 0 keyword .thisOutsideClass (!c.inClass) ++
      note 0 keyword .thisInClassMethod (c.inClass && c.function == .classMethod)
  | .function _ decl => repeated [] decl.params
  | _ => []

theorem memNote {rank rank' : Nat} {name : Ident} {fault : ScopeFault} {wrong : Bool} {error : ScopeError} :
    (rank', error) ∈ note rank name fault wrong ↔ wrong = true ∧ rank' = rank ∧ error = name.error fault := by
  unfold note
  split
  · rename_i so
    simp [so]
  · rename_i other
    simp [other]

theorem memRepeated {earlier params : List Ident} {rank : Nat} {error : ScopeError} :
    (rank, error) ∈ repeated earlier params ↔ ∃ index ident, params[index]? = some ident ∧
      rank = earlier.length + index ∧ error = ident.error .duplicateLocal ∧
      ∃ other ∈ earlier ++ params.take index, other.name = ident.name := by
  induction params generalizing earlier with
  | nil => simp [repeated]
  | cons first rest ih =>
    rw [repeated, List.mem_append, memNote, ih]
    constructor
    · intro either
      obtain ⟨known, rfl, rfl⟩ | ⟨index, ident, found, rfl, rfl, known⟩ := either
      · refine ⟨0, first, rfl, rfl, rfl, ?_⟩
        simpa using known
      · refine ⟨index + 1, ident, found, ?_, rfl, ?_⟩
        · simp only [List.length_append, List.length_singleton]
          omega
        · simpa [or_assoc] using known
    · intro given
      obtain ⟨index, ident, found, rfl, rfl, known⟩ := given
      cases index with
      | zero =>
        cases found
        refine .inl ⟨?_, rfl, rfl⟩
        simpa using known
      | succ index =>
        refine .inr ⟨index, ident, found, ?_, rfl, ?_⟩
        · simp only [List.length_append, List.length_singleton]
          omega
        · simpa [or_assoc] using known

section Own
variable {programs : List Program} {address : Address} {place : Place} {phrase : Phrase}

theorem parameterBefore (proper : ∀ p ∈ programs, Stmt.ProperAll p) {kind : FunctionContext} {decl : FunctionDecl}
    (here : phraseAt programs address = some (.function kind decl)) {name : String} {index : Nat} :
    DeclaredBefore programs ⟨address, .parameters⟩ name ⟨address, index⟩ ↔
      ∃ other ∈ decl.params.take index, other.name = name := by
  constructor
  · intro declared
    obtain ⟨mark, ident, declares, same, before⟩ := declared
    cases declares with
    | statement there named innermost =>
      obtain ⟨_, _, role | role⟩ := declaredSite proper there named innermost <;> cases role
    | @parameter _ _ _ index' _ there named =>
      cases here.symm.trans there
      have less : index' < index := by
        cases before with
        | inl before => exact absurd before (beforeOutside [] address)
        | inr both => exact both.2
      exact ⟨ident, takenItem.mpr ⟨index', less, named⟩, same⟩
  · intro given
    obtain ⟨other, member, same⟩ := given
    obtain ⟨index', less, found⟩ := takenItem.mp member
    exact ⟨⟨address, index'⟩, other, .parameter here found, same, .inr ⟨rfl, less⟩⟩

theorem enclosingInside (programs : List Program) (inner outer : Address) :
    enclosing programs outer <:+ enclosing programs (inner ++ outer) := by
  induction inner with
  | nil => exact List.suffix_rfl
  | cons step inner ih => exact ih.trans (List.suffix_append _ _)

theorem scopesAround (located : Located programs address place phrase) (empty : place.context.scopes = []) :
    enclosing programs address = [] := by
  have fits := locatedFits located
  rw [empty, locatedSites located] at fits
  exact List.forall₂_nil_right_iff.mp fits

theorem takenExact (proper : ∀ p ∈ programs, Stmt.ProperAll p) (located : Located programs address place phrase)
    {ident : Ident} (other : ident.name ≠ "this") : taken place.context ident = true ↔
      ∃ site, (enclosing programs address).head? = some site ∧ DeclaredBefore programs site ident.name ⟨address, 0⟩ := by
  have knows := locatedKnows proper located
  unfold taken
  cases all : enclosing programs address with
  | nil =>
    rw [all] at knows
    rw [List.forall₂_nil_left_iff.mp knows]
    exact iff_of_false nofun nofun
  | cons site sites =>
    rw [all] at knows
    obtain ⟨scope, outside, known, _, scopes⟩ := List.forall₂_cons_left_iff.mp knows
    rw [scopes]
    simp [known.named other]

theorem pendingExact (proper : ∀ p ∈ programs, Stmt.ProperAll p) {e : Expr}
    (located : Located programs address place (.expr e)) {name : Ident} :
    pending place.context name = true ↔ InItself programs address name.name := by
  unfold pending
  cases scopes : place.context.scopes with
  | cons scope outside => simpa using pendingRead proper located scopes
  | nil =>
    refine iff_of_false nofun ?_
    intro inItself
    obtain ⟨inner, outer, _, _, site, rfl, _, _, _, innermost, _⟩ := inItself
    have around := enclosingInside programs (inner ++ [.initializer]) outer
    rw [List.append_assoc, List.singleton_append, scopesAround located scopes, List.suffix_nil] at around
    rw [around] at innermost
    cases innermost

theorem declaredProper (proper : phrase.Proper) {ident : Ident} (named : phrase.declared? = some ident) :
    ident.name ≠ "this" := by
  cases phrase with
  | stmt s =>
    cases s with
    | varDecl name initializer =>
      cases named
      cases initializer with
      | none => exact proper
      | some initializer => exact proper.1
    | funDecl decl =>
      obtain ⟨name, params, body, line⟩ := decl
      cases named
      exact proper.2.1 ident (List.mem_append_left _ (by simp))
    | classDecl decl =>
      obtain ⟨name, superclass, methods, classMethods⟩ := decl
      cases named
      exact proper.2.2
    | _ => cases named
  | _ => cases named

theorem duplicateExact (proper : ∀ p ∈ programs, Stmt.ProperAll p) (located : Located programs address place phrase)
    {ident : Ident} (named : phrase.declared? = some ident) : taken place.context ident = true ↔
      ∃ site, Declares programs site ⟨address, 0⟩ ident ∧ DeclaredBefore programs site ident.name ⟨address, 0⟩ := by
  rw [takenExact proper located (declaredProper (locatedProper proper located) named)]
  refine exists_congr fun site => and_congr_left fun _ => ?_
  constructor
  · exact fun innermost => .statement located.phraseAt named innermost
  · intro declares
    cases declares with
    | statement here named innermost => exact innermost
    | parameter here found =>
      cases located.phraseAt.symm.trans here
      cases named

theorem notedDuplicate (proper : ∀ p ∈ programs, Stmt.ProperAll p) (located : Located programs address place phrase)
    {ident : Ident} (named : phrase.declared? = some ident) {rank : Nat} {error : ScopeError}
    (noted : (rank, error) ∈ note 0 ident .duplicateLocal (taken place.context ident)) :
    Violation programs ⟨address, rank⟩ error := by
  obtain ⟨wrong, rfl, rfl⟩ := memNote.mp noted
  obtain ⟨site, declares, again⟩ := (duplicateExact proper located named).mp wrong
  exact .duplicate declares again

theorem ownViolation (proper : ∀ p ∈ programs, Stmt.ProperAll p) (located : Located programs address place phrase)
    {rank : Nat} {error : ScopeError} (reported : (rank, error) ∈ phrase.own place.context) :
    Violation programs ⟨address, rank⟩ error := by
  have here := located.phraseAt
  cases phrase with
  | program body => cases reported
  | function kind decl =>
    obtain ⟨index, ident, found, rfl, rfl, known⟩ := memRepeated.mp reported
    rw [List.length_nil, Nat.zero_add]
    exact .duplicate (.parameter here found) ((parameterBefore proper here).mpr known)
  | expr e =>
    cases e with
    | var name slot =>
      obtain ⟨wrong, rfl, rfl⟩ := memNote.mp reported
      exact .ownInitializer here ((pendingExact proper located).mp wrong)
    | this keyword slot =>
      obtain noted | noted := List.mem_append.mp reported
      · obtain ⟨wrong, rfl, rfl⟩ := memNote.mp noted
        rw [locatedInClass located] at wrong
        exact .thisOutsideClass here (by simpa using wrong)
      · obtain ⟨wrong, rfl, rfl⟩ := memNote.mp noted
        obtain ⟨_, direct⟩ := Bool.and_eq_true_iff.mp wrong
        obtain ⟨index, outer, around⟩ := (inClassMethod located).mp (beq_iff_eq.mp direct)
        exact .thisInClassMethod here around
    | _ => cases reported
  | stmt s =>
    cases s with
    | varDecl name initializer => exact notedDuplicate proper located rfl reported
    | funDecl decl =>
      obtain ⟨name, params, body, line⟩ := decl
      cases name with
      | none => cases reported
      | some name => exact notedDuplicate proper located rfl reported
    | classDecl decl =>
      obtain ⟨name, superclass, methods, classMethods⟩ := decl
      obtain noted | noted := List.mem_append.mp reported
      · exact notedDuplicate proper located rfl noted
      · unfold ownSuperclass at noted
        split at noted
        · obtain ⟨same, rfl, rfl⟩ := memNote.mp noted
          exact .inheritsFromItself here (beq_iff_eq.mp same)
        · cases noted
    | returnStmt keyword value =>
      obtain noted | noted := List.mem_append.mp reported
      · obtain ⟨wrong, rfl, rfl⟩ := memNote.mp noted
        exact .returnAtTopLevel here ((outsideFunctions located).mp (beq_iff_eq.mp wrong))
      · obtain ⟨wrong, rfl, rfl⟩ := memNote.mp noted
        obtain ⟨hasValue, within⟩ := Bool.and_eq_true_iff.mp wrong
        obtain ⟨value, rfl⟩ := Option.isSome_iff_exists.mp hasValue
        obtain ⟨index, outer, kind, decl, around, method, named⟩ := (inInitializer located).mp (beq_iff_eq.mp within)
        exact .valueFromInitializer here around method named
    | _ => cases reported

theorem ownDuplicate {c : ScopeContext} {ident : Ident} (named : phrase.declared? = some ident)
    (again : taken c ident = true) : (0, ident.error .duplicateLocal) ∈ phrase.own c := by
  have noted : (0, ident.error .duplicateLocal) ∈ note 0 ident .duplicateLocal (taken c ident) :=
    memNote.mpr ⟨again, rfl, rfl⟩
  cases phrase with
  | stmt s =>
    cases s with
    | varDecl name initializer =>
      cases named
      exact noted
    | funDecl decl =>
      obtain ⟨name, params, body, line⟩ := decl
      cases named
      exact noted
    | classDecl decl =>
      obtain ⟨name, superclass, methods, classMethods⟩ := decl
      cases named
      exact List.mem_append_left _ noted
    | _ => cases named
  | _ => cases named

theorem violationOwn (proper : ∀ p ∈ programs, Stmt.ProperAll p) (located : Located programs address place phrase)
    {rank : Nat} {error : ScopeError} (violation : Violation programs ⟨address, rank⟩ error) :
    (rank, error) ∈ phrase.own place.context := by
  have here := located.phraseAt
  cases violation with
  | duplicate declares again =>
    cases declares with
    | statement there named innermost =>
      cases here.symm.trans there
      exact ownDuplicate named ((duplicateExact proper located named).mpr ⟨_, .statement there named innermost, again⟩)
    | parameter there found =>
      cases here.symm.trans there
      exact memRepeated.mpr ⟨_, _, found, (Nat.zero_add _).symm, rfl, (parameterBefore proper there).mp again⟩
  | ownInitializer there inside =>
    cases here.symm.trans there
    exact memNote.mpr ⟨(pendingExact proper located).mpr inside, rfl, rfl⟩
  | returnAtTopLevel there outside =>
    cases here.symm.trans there
    refine List.mem_append_left _ (memNote.mpr ⟨?_, rfl, rfl⟩)
    exact beq_iff_eq.mpr ((outsideFunctions located).mpr outside)
  | valueFromInitializer there around method named =>
    cases here.symm.trans there
    refine List.mem_append_right _ (memNote.mpr ⟨?_, rfl, rfl⟩)
    have within := (inInitializer located).mpr ⟨_, _, _, _, around, method, named⟩
    exact Bool.and_eq_true_iff.mpr ⟨rfl, beq_iff_eq.mpr within⟩
  | thisOutsideClass there outside =>
    cases here.symm.trans there
    refine List.mem_append_left _ (memNote.mpr ⟨?_, rfl, rfl⟩)
    rw [locatedInClass located, outside]
    rfl
  | thisInClassMethod there around =>
    cases here.symm.trans there
    refine List.mem_append_right _ (memNote.mpr ⟨?_, rfl, rfl⟩)
    have direct := (inClassMethod located).mpr ⟨_, _, around⟩
    refine Bool.and_eq_true_iff.mpr ⟨?_, beq_iff_eq.mpr direct⟩
    rw [locatedInClass located]
    exact classMethodInClass around
  | inheritsFromItself there same =>
    cases here.symm.trans there
    exact List.mem_append_right _ (memNote.mpr ⟨beq_iff_eq.mpr same, rfl, rfl⟩)

end Own

end Treewalk
