import Treewalk.Syntax.Equal

/-! Equality of syntax trees is decidable: where literals are compared exactly, trees that compare as equal are the same.
So what a text is read as can be computed. -/
namespace Treewalk

def Literal.identical (a b : Literal) : Bool := decide (a = b)

mutual

theorem Expr.equalsIff (e e' : Expr) : e.equals Literal.identical e' = true ↔ e = e' := by
  cases e with
  | literal value line => cases e' <;> simp [Expr.equals, Literal.identical]
  | unary op right line => cases e' <;> simp [Expr.equals, right.equalsIff, and_assoc]
  | binary left op right line => cases e' <;> simp [Expr.equals, left.equalsIff, right.equalsIff, and_assoc]
  | logical left op right line => cases e' <;> simp [Expr.equals, left.equalsIff, right.equalsIff, and_assoc]
  | ternary condition thenBranch elseBranch line =>
    cases e' <;> simp [Expr.equals, condition.equalsIff, thenBranch.equalsIff, elseBranch.equalsIff, and_assoc]
  | grouping inner => cases e' <;> simp [Expr.equals, inner.equalsIff]
  | var name depth => cases e' <;> simp [Expr.equals]
  | assign name value depth => cases e' <;> simp [Expr.equals, value.equalsIff, and_assoc]
  | call callee arguments line =>
    cases e' <;> simp [Expr.equals, callee.equalsIff, Expr.equalsAllIff arguments, and_assoc]
  | get object name => cases e' <;> simp [Expr.equals, object.equalsIff]
  | set object name value => cases e' <;> simp [Expr.equals, object.equalsIff, value.equalsIff, and_assoc]
  | this keyword depth => cases e' <;> simp [Expr.equals]
  | lambda decl => cases e' <;> simp [Expr.equals, decl.equalsIff]
termination_by structural e

theorem Expr.equalsAllIff (es es' : List Expr) : Expr.equalsAll Literal.identical es es' = true ↔ es = es' := by
  cases es with
  | nil => cases es' <;> simp [Expr.equalsAll]
  | cons e rest => cases es' <;> simp [Expr.equalsAll, e.equalsIff, Expr.equalsAllIff rest]
termination_by structural es

theorem Expr.equalsOptionIff (e e' : Option Expr) : Expr.equalsOption Literal.identical e e' = true ↔ e = e' := by
  cases e with
  | none => cases e' <;> simp [Expr.equalsOption]
  | some e => cases e' <;> simp [Expr.equalsOption, e.equalsIff]
termination_by structural e

theorem Stmt.equalsIff (s s' : Stmt) : s.equals Literal.identical s' = true ↔ s = s' := by
  cases s with
  | expression value => cases s' <;> simp [Stmt.equals, value.equalsIff]
  | print value => cases s' <;> simp [Stmt.equals, value.equalsIff]
  | varDecl name initializer => cases s' <;> simp [Stmt.equals, Expr.equalsOptionIff initializer]
  | block body => cases s' <;> simp [Stmt.equals, Stmt.equalsAllIff body]
  | ifElse condition thenBranch elseBranch =>
    cases s' <;> simp [Stmt.equals, condition.equalsIff, thenBranch.equalsIff, Stmt.equalsOptionIff elseBranch, and_assoc]
  | whileLoop condition body => cases s' <;> simp [Stmt.equals, condition.equalsIff, body.equalsIff]
  | funDecl decl => cases s' <;> simp [Stmt.equals, decl.equalsIff]
  | classDecl decl => cases s' <;> simp [Stmt.equals, decl.equalsIff]
  | returnStmt keyword value => cases s' <;> simp [Stmt.equals, Expr.equalsOptionIff value]
termination_by structural s

theorem Stmt.equalsAllIff (body body' : List Stmt) : Stmt.equalsAll Literal.identical body body' = true ↔ body = body' := by
  cases body with
  | nil => cases body' <;> simp [Stmt.equalsAll]
  | cons s rest => cases body' <;> simp [Stmt.equalsAll, s.equalsIff, Stmt.equalsAllIff rest]
termination_by structural body

theorem Stmt.equalsOptionIff (s s' : Option Stmt) : Stmt.equalsOption Literal.identical s s' = true ↔ s = s' := by
  cases s with
  | none => cases s' <;> simp [Stmt.equalsOption]
  | some s => cases s' <;> simp [Stmt.equalsOption, s.equalsIff]
termination_by structural s

theorem FunctionDecl.equalsIff (decl decl' : FunctionDecl) : decl.equals Literal.identical decl' = true ↔ decl = decl' := by
  obtain ⟨name, params, body, line⟩ := decl
  cases decl'
  simp [FunctionDecl.equals, Stmt.equalsAllIff body, and_assoc]
termination_by structural decl

theorem FunctionDecl.equalsAllIff (decls decls' : List FunctionDecl) :
    FunctionDecl.equalsAll Literal.identical decls decls' = true ↔ decls = decls' := by
  cases decls with
  | nil => cases decls' <;> simp [FunctionDecl.equalsAll]
  | cons f rest => cases decls' <;> simp [FunctionDecl.equalsAll, f.equalsIff, FunctionDecl.equalsAllIff rest]
termination_by structural decls

theorem ClassDecl.equalsIff (decl decl' : ClassDecl) : decl.equals Literal.identical decl' = true ↔ decl = decl' := by
  obtain ⟨name, superclass, methods, classMethods⟩ := decl
  cases decl'
  simp [ClassDecl.equals, Expr.equalsOptionIff superclass, FunctionDecl.equalsAllIff methods,
    FunctionDecl.equalsAllIff classMethods, and_assoc]
termination_by structural decl

end

instance : DecidableEq Expr := fun e e' => decidable_of_iff _ (e.equalsIff e')

instance : DecidableEq Stmt := fun s s' => decidable_of_iff _ (s.equalsIff s')

instance : DecidableEq FunctionDecl := fun decl decl' => decidable_of_iff _ (decl.equalsIff decl')

theorem readAs {result : Except ε α} {a : α} (read : result.toOption = some a) : result = .ok a := by
  cases result with
  | ok b => exact congrArg Except.ok (Option.some.inj read)
  | error e => cases read

def completed? : EStateM.Result ε σ α → Option (α × σ)
  | .ok a s => some (a, s)
  | .error _ _ => none

theorem completedAs {result : EStateM.Result ε σ α} {a : α} {s : σ} (completed : completed? result = some (a, s)) :
    result = .ok a s := by
  cases result with
  | ok b t =>
    cases completed
    rfl
  | error e t => cases completed

end Treewalk
