import Treewalk.Scope

/-! What the walk of scope resolution leaves behind. Whatever a phrase is made of, all scopes it opened are closed
after it, the kind of the enclosing function and class is what it was, no error is taken back, and the innermost
scope has gained, as complete, just the names that the phrase declares there. -/
namespace Treewalk

theorem Table.insertEntryTwice (name : String) (first second : α) (entries : List (String × α)) :
    insertEntry name second (insertEntry name first entries) = insertEntry name second entries := by
  induction entries with
  | nil => simp [insertEntry]
  | cons entry rest ih =>
    obtain ⟨key, old⟩ := entry
    by_cases same : name = key
    · simp [insertEntry, same]
    · simp [insertEntry, same, ih]

theorem Table.insertTwice (t : Table α) (name : String) (first second : α) :
    (t.insert name first).insert name second = t.insert name second :=
  congrArg Table.mk (insertEntryTwice name first second t.entries)

/- The names a statement declares in the scope that it stands in. The parts of a branch or of a loop stand in the
same scope as the whole; blocks, functions and classes keep their own names. -/
def Stmt.declares : Stmt → List String
  | .varDecl name _ => [name.name]
  | .funDecl ⟨some name, _, _, _⟩ => [name.name]
  | .classDecl decl => [decl.name.name]
  | .ifElse _ thenBranch none => thenBranch.declares
  | .ifElse _ thenBranch (some elseBranch) => thenBranch.declares ++ elseBranch.declares
  | .whileLoop _ body => body.declares
  | _ => []

def declaredNames (body : List Stmt) : List String := body.flatMap Stmt.declares

def Scope.introduce (scope : Scope) (names : List String) : Scope :=
  names.foldl (fun scope name => scope.insert name true) scope

theorem introduceFind (names : List String) (scope : Scope) (name : String) :
    (scope.introduce names).find? name = if name ∈ names then some true else scope.find? name := by
  induction names generalizing scope with
  | nil => simp [Scope.introduce]
  | cons first rest ih =>
    have entered : (scope.introduce (first :: rest)).find? name =
        (Scope.introduce (scope.insert first true) rest).find? name := rfl
    rw [entered, ih, Table.findInsert]
    by_cases later : name ∈ rest <;> by_cases same : name = first <;> simp [later, same]

/- At top level there is no scope, and nothing is introduced. -/
def introduce (names : List String) : List Scope → List Scope
  | [] => []
  | scope :: outer => scope.introduce names :: outer

theorem introduceNone (scopes : List Scope) : introduce [] scopes = scopes := by
  cases scopes <;> rfl

theorem introduceAppend (first second : List String) (scopes : List Scope) :
    introduce (first ++ second) scopes = introduce second (introduce first scopes) := by
  cases scopes with
  | nil => rfl
  | cons scope outer => simp only [introduce, Scope.introduce, List.foldl_append]

structure Introduces (names : List String) (c c' : ScopeContext) : Prop where
  scopes : c'.scopes = introduce names c.scopes
  function : c'.function = c.function
  inClass : c'.inClass = c.inClass
  errors : c.errors <+: c'.errors

namespace Introduces

theorem refl (c : ScopeContext) : Introduces [] c c :=
  ⟨(introduceNone c.scopes).symm, rfl, rfl, List.prefix_rfl⟩

theorem trans (first : Introduces before c c') (second : Introduces later c' c'') :
    Introduces (before ++ later) c c'' := by
  have scopes : c''.scopes = introduce (before ++ later) c.scopes := by
    rw [second.scopes, first.scopes, introduceAppend]
  exact ⟨scopes, second.function.trans first.function, second.inClass.trans first.inClass,
    first.errors.trans second.errors⟩

end Introduces

namespace Walk

def result (w : Walk α) (c : ScopeContext) : α := (w c).1

def after (w : Walk α) (c : ScopeContext) : ScopeContext := (w c).2

def Moves (names : List String) (w : Walk α) : Prop := ∀ c, Introduces names c (w.after c)

abbrev Steady (w : Walk α) : Prop := w.Moves []

theorem steadyPure (a : α) : Steady (pure a : Walk α) := fun c => .refl c

theorem Moves.bind {w : Walk α} {k : α → Walk β} (first : w.Moves before) (second : ∀ a, (k a).Moves later) :
    (w >>= k).Moves (before ++ later) :=
  fun c => (first c).trans (second (w.result c) (w.after c))

theorem Steady.bind {w : Walk α} {k : α → Walk β} (first : w.Steady) (second : ∀ a, (k a).Moves names) :
    (w >>= k).Moves names :=
  fun c => (first c).trans (second (w.result c) (w.after c))

theorem Moves.pure {w : Walk α} {f : α → β} (first : w.Moves names) : (do return f (← w)).Moves names := by
  have both := Moves.bind first (fun a => steadyPure (f a))
  rwa [List.append_nil] at both

theorem steadyReport (name : Ident) (fault : ScopeFault) : Steady (report name fault) :=
  fun c => ⟨(introduceNone c.scopes).symm, rfl, rfl, List.prefix_append _ _⟩

theorem steadyGet {k : ScopeContext → Walk α} (h : ∀ c, (k c).Moves names) : (get >>= k).Moves names :=
  fun c => h c c

theorem steadyWhen {condition : Prop} [Decidable condition] {w : Walk Unit} (h : w.Steady) :
    Steady (if condition then w else pure ()) := by
  split
  · exact h
  · exact steadyPure ()

theorem steadySlot (name : Ident) (old : Depth) : Steady (slot name old) := by
  apply steadyGet
  intro c
  cases c.scopes.findIdx? (·.contains name.name) with
  | none => exact steadyPure old
  | some depth => exact steadyPure (some depth)

theorem steadyCheckInitialized (name : Ident) : Steady (checkInitialized name) := by
  apply steadyGet
  intro c
  cases c.scopes with
  | nil => exact steadyPure ()
  | cons scope outer => exact steadyWhen (steadyReport name .readInOwnInitializer)

theorem steadyThisSlot (keyword : Ident) (old : Depth) : Steady (thisSlot keyword old) := by
  apply steadyGet
  intro c
  split
  · exact Steady.bind (steadyReport keyword .thisOutsideClass) (fun _ => steadyPure old)
  · split
    · exact Steady.bind (steadyReport keyword .thisInClassMethod) (fun _ => steadyPure old)
    · exact steadySlot keyword old

theorem steadyCheckReturn (keyword : Ident) : Steady (checkReturn keyword) :=
  steadyGet fun _ => steadyWhen (steadyReport keyword .returnAtTopLevel)

theorem steadyCheckReturnValue (keyword : Ident) : Steady (checkReturnValue keyword) :=
  steadyGet fun _ => steadyWhen (steadyReport keyword .valueFromInitializer)

theorem steadyCheckSuperclass (name : Ident) (superclass : Expr) : Steady (checkSuperclass name superclass) := by
  unfold checkSuperclass
  split
  · exact steadyWhen (steadyReport _ .inheritsFromItself)
  · exact steadyPure ()

theorem defineAfter (name : Ident) (c : ScopeContext) :
    (define name).after c = { c with scopes := introduce [name.name] c.scopes } := by
  obtain ⟨scopes, kind, within, errors⟩ := c
  cases scopes <;> rfl

theorem declareAfter (name : Ident) (c : ScopeContext) :
    (declare name).after c = match c.scopes with
      | [] => c
      | scope :: outer =>
        if scope.contains name.name then
          { c with errors := c.errors ++ [⟨name.line, name.name, .duplicateLocal⟩] }
        else { c with scopes := scope.insert name.name false :: outer } := by
  obtain ⟨scopes, kind, within, errors⟩ := c
  cases scopes with
  | nil => rfl
  | cons scope outer =>
    change Prod.snd ((if scope.contains name.name then _ else _ : Walk Unit) _) = if _ then _ else _
    split <;> rfl

theorem declareKeeps (name : Ident) (c : ScopeContext) :
    ((declare name).after c).function = c.function ∧ ((declare name).after c).inClass = c.inClass ∧
    c.errors <+: ((declare name).after c).errors := by
  rw [declareAfter]
  split
  · exact ⟨rfl, rfl, List.prefix_rfl⟩
  · split
    · exact ⟨rfl, rfl, List.prefix_append _ _⟩
    · exact ⟨rfl, rfl, List.prefix_rfl⟩

theorem introduceDeclared (name : Ident) (c : ScopeContext) :
    introduce [name.name] ((declare name).after c).scopes = introduce [name.name] c.scopes := by
  rw [declareAfter]
  cases h : c.scopes with
  | nil => exact congrArg _ h
  | cons scope outer =>
    simp only
    split
    · rfl
    · simp only [introduce, Scope.introduce, List.foldl_cons, List.foldl_nil, Table.insertTwice]

theorem movesDeclared {name : Ident} {w : Walk α} {f : α → β} (steady : w.Steady) :
    Moves [name.name] (do declare name; let a ← w; define name; return f a) := by
  intro c
  obtain ⟨function, inClass, errors⟩ := declareKeeps name c
  have inner := steady ((declare name).after c)
  have ends : Walk.after (do declare name; let a ← w; define name; return f a) c =
      (define name).after (w.after ((declare name).after c)) := rfl
  rw [ends, defineAfter]
  have scopes : introduce [name.name] (w.after ((declare name).after c)).scopes =
      introduce [name.name] c.scopes := by
    rw [inner.scopes, introduceNone, introduceDeclared]
  exact ⟨scopes, inner.function.trans function, inner.inClass.trans inClass, errors.trans inner.errors⟩

theorem movesDeclaredAlone (name : Ident) : Moves [name.name] (do declare name; define name) :=
  movesDeclared (f := fun _ => ()) (steadyPure ())

theorem movesDeclaredThen (name : Ident) {k : Walk α} (h : k.Moves names) :
    Moves (name.name :: names) (do declare name; define name; k) :=
  (movesDeclaredAlone name).bind (fun _ => h)

theorem movesDeclareAll (names : List Ident) : (declareAll names).Moves (names.map Ident.name) := by
  induction names with
  | nil => exact steadyPure ()
  | cons name rest ih => exact movesDeclaredThen name ih

theorem steadyInScope {w : Walk α} (scope : Scope) (h : w.Moves names) : Steady (inScope scope w) := by
  intro c
  have inner := h { c with scopes := scope :: c.scopes }
  have ends : (inScope scope w).after c =
      { w.after { c with scopes := scope :: c.scopes } with
        scopes := (w.after { c with scopes := scope :: c.scopes }).scopes.tail } := rfl
  rw [ends, inner.scopes]
  exact ⟨(introduceNone c.scopes).symm, inner.function, inner.inClass, inner.errors⟩

theorem steadyInFunction {w : Walk α} (kind : FunctionContext) (h : w.Steady) : Steady (inFunction kind w) := by
  intro c
  have inner := h { c with function := kind }
  exact ⟨inner.scopes, rfl, inner.inClass, inner.errors⟩

theorem movesInClass {w : Walk α} (h : w.Moves names) : Moves names (inClass w) := by
  intro c
  have inner := h { c with inClass := true }
  exact ⟨inner.scopes, inner.function, rfl, inner.errors⟩

end Walk

open Walk

mutual

theorem Expr.resolveSteady : ∀ e : Expr, e.resolve.Steady
  | .literal _ _ => steadyPure _
  | .unary _ right _ => right.resolveSteady.pure
  | .binary left _ right _ => left.resolveSteady.bind fun _ => right.resolveSteady.pure
  | .logical left _ right _ => left.resolveSteady.bind fun _ => right.resolveSteady.pure
  | .ternary condition thenBranch elseBranch _ =>
    condition.resolveSteady.bind fun _ => thenBranch.resolveSteady.bind fun _ =>
      elseBranch.resolveSteady.pure
  | .grouping inner => inner.resolveSteady.pure
  | .var name depth => (steadyCheckInitialized name).bind fun _ => (steadySlot name depth).pure
  | .assign name value depth => value.resolveSteady.bind fun _ => (steadySlot name depth).pure
  | .call callee arguments _ => callee.resolveSteady.bind fun _ => (Expr.resolveListSteady arguments).pure
  | .get object _ => object.resolveSteady.pure
  | .set object _ value => object.resolveSteady.bind fun _ => value.resolveSteady.pure
  | .this keyword depth => (steadyThisSlot keyword depth).pure
  | .lambda decl => (decl.resolveSteady .lambda).pure

theorem Expr.resolveListSteady : ∀ es : List Expr, (Expr.resolveList es).Steady
  | [] => steadyPure []
  | e :: rest => e.resolveSteady.bind fun _ => (Expr.resolveListSteady rest).pure

theorem Stmt.resolveMoves : ∀ s : Stmt, s.resolve.Moves s.declares
  | .expression value => value.resolveSteady.pure
  | .print value => value.resolveSteady.pure
  | .varDecl name none => movesDeclaredThen name (steadyPure _)
  | .varDecl _ (some initializer) => movesDeclared initializer.resolveSteady
  | .block body => (steadyInScope .empty (Stmt.resolveListMoves body)).pure
  | .ifElse condition thenBranch none => condition.resolveSteady.bind fun _ => thenBranch.resolveMoves.pure
  | .ifElse condition thenBranch (some elseBranch) =>
    condition.resolveSteady.bind fun _ => thenBranch.resolveMoves.bind fun _ => elseBranch.resolveMoves.pure
  | .whileLoop condition body => condition.resolveSteady.bind fun _ => body.resolveMoves.pure
  | .funDecl ⟨none, params, body, line⟩ => (FunctionDecl.resolveSteady .function ⟨none, params, body, line⟩).pure
  | .funDecl ⟨some name, params, body, line⟩ =>
    movesDeclaredThen name (FunctionDecl.resolveSteady .function ⟨some name, params, body, line⟩).pure
  | .classDecl decl => decl.resolveMoves.pure
  | .returnStmt keyword none => (steadyCheckReturn keyword).pure
  | .returnStmt keyword (some value) =>
    (steadyCheckReturn keyword).bind fun _ => (steadyCheckReturnValue keyword).bind fun _ =>
      value.resolveSteady.pure

theorem Stmt.resolveListMoves : ∀ body : List Stmt, (Stmt.resolveList body).Moves (declaredNames body)
  | [] => steadyPure []
  | s :: rest => s.resolveMoves.bind fun _ => (Stmt.resolveListMoves rest).pure

theorem FunctionDecl.resolveSteady (kind : FunctionContext) : ∀ decl : FunctionDecl, (decl.resolve kind).Steady
  | ⟨_, params, body, _⟩ =>
    steadyInFunction kind <| steadyInScope .empty <| (movesDeclareAll params).bind fun _ =>
      (steadyInScope .empty (Stmt.resolveListMoves body)).pure

theorem FunctionDecl.resolveMethodsSteady : ∀ decls : List FunctionDecl, (FunctionDecl.resolveMethods decls).Steady
  | [] => steadyPure []
  | f :: rest => (f.resolveSteady f.methodContext).bind fun _ => (FunctionDecl.resolveMethodsSteady rest).pure

theorem FunctionDecl.resolveClassMethodsSteady :
    ∀ decls : List FunctionDecl, (FunctionDecl.resolveClassMethods decls).Steady
  | [] => steadyPure []
  | f :: rest => (f.resolveSteady .classMethod).bind fun _ => (FunctionDecl.resolveClassMethodsSteady rest).pure

theorem ClassDecl.resolveSuperclassSteady (name : Ident) :
    ∀ superclass : Option Expr, (ClassDecl.resolveSuperclass name superclass).Steady
  | none => steadyPure none
  | some superclass => (steadyCheckSuperclass name superclass).bind fun _ => superclass.resolveSteady.pure

theorem ClassDecl.resolveMoves : ∀ decl : ClassDecl, decl.resolve.Moves [decl.name.name]
  | ⟨name, superclass, methods, classMethods⟩ =>
    movesInClass <| movesDeclaredThen name <|
      (ClassDecl.resolveSuperclassSteady name superclass).bind fun _ =>
        steadyInScope .ofThis <| (FunctionDecl.resolveMethodsSteady methods).bind fun _ =>
          (FunctionDecl.resolveClassMethodsSteady classMethods).pure

end

end Treewalk
