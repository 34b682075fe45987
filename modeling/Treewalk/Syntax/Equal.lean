import Treewalk.Syntax

/-! Equality of syntax trees, however literals are compared: everything counts, lines and slots included. -/
namespace Treewalk

section
variable (same : Literal → Literal → Bool)

mutual

def Expr.equals : Expr → Expr → Bool
  | .literal value line, .literal value' line' => same value value' && line == line'
  | .unary op right line, .unary op' right' line' => op == op' && right.equals right' && line == line'
  | .binary left op right line, .binary left' op' right' line' =>
    left.equals left' && op == op' && right.equals right' && line == line'
  | .logical left op right line, .logical left' op' right' line' =>
    left.equals left' && op == op' && right.equals right' && line == line'
  | .ternary condition thenBranch elseBranch line, .ternary condition' thenBranch' elseBranch' line' =>
    condition.equals condition' && thenBranch.equals thenBranch' && elseBranch.equals elseBranch' && line == line'
  | .grouping inner, .grouping inner' => inner.equals inner'
  | .var name depth, .var name' depth' => name == name' && depth == depth'
  | .assign name value depth, .assign name' value' depth' => name == name' && value.equals value' && depth == depth'
  | .call callee arguments line, .call callee' arguments' line' =>
    callee.equals callee' && Expr.equalsAll arguments arguments' && line == line'
  | .get object name, .get object' name' => object.equals object' && name == name'
  | .set object name value, .set object' name' value' =>
    object.equals object' && name == name' && value.equals value'
  | .this keyword depth, .this keyword' depth' => keyword == keyword' && depth == depth'
  | .lambda decl, .lambda decl' => decl.equals decl'
  | _, _ => false
termination_by structural e => e

def Expr.equalsAll : List Expr → List Expr → Bool
  | [], [] => true
  | e :: rest, e' :: rest' => e.equals e' && Expr.equalsAll rest rest'
  | _, _ => false
termination_by structural es => es

def Expr.equalsOption : Option Expr → Option Expr → Bool
  | none, none => true
  | some e, some e' => e.equals e'
  | _, _ => false
termination_by structural e => e

def Stmt.equals : Stmt → Stmt → Bool
  | .expression value, .expression value' => value.equals value'
  | .print value, .print value' => value.equals value'
  | .varDecl name initializer, .varDecl name' initializer' =>
    name == name' && Expr.equalsOption initializer initializer'
  | .block body, .block body' => Stmt.equalsAll body body'
  | .ifElse condition thenBranch elseBranch, .ifElse condition' thenBranch' elseBranch' =>
    condition.equals condition' && thenBranch.equals thenBranch' && Stmt.equalsOption elseBranch elseBranch'
  | .whileLoop condition body, .whileLoop condition' body' => condition.equals condition' && body.equals body'
  | .funDecl decl, .funDecl decl' => decl.equals decl'
  | .classDecl decl, .classDecl decl' => decl.equals decl'
  | .returnStmt keyword value, .returnStmt keyword' value' => keyword == keyword' && Expr.equalsOption value value'
  | _, _ => false
termination_by structural s => s

def Stmt.equalsAll : List Stmt → List Stmt → Bool
  | [], [] => true
  | s :: rest, s' :: rest' => s.equals s' && Stmt.equalsAll rest rest'
  | _, _ => false
termination_by structural body => body

def Stmt.equalsOption : Option Stmt → Option Stmt → Bool
  | none, none => true
  | some s, some s' => s.equals s'
  | _, _ => false
termination_by structural s => s

def FunctionDecl.equals : FunctionDecl → FunctionDecl → Bool
  | ⟨name, params, body, line⟩, ⟨name', params', body', line'⟩ =>
    name == name' && params == params' && Stmt.equalsAll body body' && line == line'
termination_by structural decl => decl

def FunctionDecl.equalsAll : List FunctionDecl → List FunctionDecl → Bool
  | [], [] => true
  | f :: rest, f' :: rest' => f.equals f' && FunctionDecl.equalsAll rest rest'
  | _, _ => false
termination_by structural decls => decls

def ClassDecl.equals : ClassDecl → ClassDecl → Bool
  | ⟨name, superclass, methods, classMethods⟩, ⟨name', superclass', methods', classMethods'⟩ =>
    name == name' && Expr.equalsOption superclass superclass' && FunctionDecl.equalsAll methods methods' &&
      FunctionDecl.equalsAll classMethods classMethods'
termination_by structural decl => decl

end

end

/-- Equality of programs compares number literals as numbers. -/
def Program.equals (p q : Program) : Bool := Stmt.equalsAll (· == ·) p q

end Treewalk
