import Treewalk.Proofs.Scoping

/-! The context of the walk is balanced. An expression leaves it as it was, errors apart. A statement changes only the
innermost scope, where the names that it declares there are complete afterwards and nothing else is new. -/
namespace Treewalk

inductive Completes (names : List String) : List Scope → List Scope → Prop where
  | global : Completes names [] []
  | innermost {scope scope' : Scope} {outer : List Scope}
      (found : ∀ name, scope'.find? name = if name ∈ names then some true else scope.find? name) :
      Completes names (scope :: outer) (scope' :: outer)

theorem completesIntroduce (names : List String) (scopes : List Scope) :
    Completes names scopes (introduce names scopes) := by
  cases scopes with
  | nil => exact .global
  | cons scope outer => exact .innermost (introduceFind names scope)

theorem Completes.height {names : List String} {scopes scopes' : List Scope} (h : Completes names scopes scopes') :
    scopes'.length = scopes.length ∧ scopes'.tail = scopes.tail := by
  cases h <;> exact ⟨rfl, rfl⟩

theorem Introduces.completes {names : List String} {c c' : ScopeContext} (h : Introduces names c c') :
    Completes names c.scopes c'.scopes := by
  rw [h.scopes]
  exact completesIntroduce names c.scopes

/- The fields of the context after each kind of phrase. The last part is the walk of a whole program, whose result and
errors `Program.resolve` gives: it ends with no scope open. -/
theorem resolveBalanced (c : ScopeContext) :
    (∀ e : Expr, (e.resolve.after c).scopes = c.scopes ∧ (e.resolve.after c).function = c.function ∧
      (e.resolve.after c).inClass = c.inClass ∧ c.errors <+: (e.resolve.after c).errors) ∧
    (∀ s : Stmt, Completes s.declares c.scopes (s.resolve.after c).scopes ∧
      (s.resolve.after c).scopes.length = c.scopes.length ∧ (s.resolve.after c).scopes.tail = c.scopes.tail ∧
      (s.resolve.after c).function = c.function ∧ (s.resolve.after c).inClass = c.inClass ∧
      c.errors <+: (s.resolve.after c).errors) ∧
    ∀ p : Program, Completes (declaredNames p) c.scopes ((Stmt.resolveList p).after c).scopes ∧
      ∃ last, Stmt.resolveList p .outermost = (p.resolve.1, last) ∧ last.errors = p.resolve.2 ∧ last.scopes = [] := by
  refine ⟨fun e => ?_, fun s => ?_, fun p => ⟨(Stmt.resolveListMoves p c).completes, ?_⟩⟩
  · have moved := e.resolveSteady c
    exact ⟨moved.scopes.trans (introduceNone c.scopes), moved.function, moved.inClass, moved.errors⟩
  · have moved := s.resolveMoves c
    obtain ⟨height, outer⟩ := moved.completes.height
    exact ⟨moved.completes, height, outer, moved.function, moved.inClass, moved.errors⟩
  · have empty : ((Stmt.resolveList p).after .outermost).scopes = [] := (Stmt.resolveListMoves p .outermost).scopes
    exact ⟨(Stmt.resolveList p).after .outermost, rfl, rfl, empty⟩

end Treewalk
