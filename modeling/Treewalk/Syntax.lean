/-! Syntax trees. Names that scopes resolve carry a depth slot: the number of scopes between the use and
its declaration, or nothing for a global name. -/
namespace Treewalk

structure Ident where
  name : String
  line : Nat
  deriving DecidableEq, Repr

inductive Literal where
  | number (value : Float)
  | string (contents : String)
  | bool (value : Bool)
  | nil
  deriving BEq, DecidableEq, Repr

inductive UnaryOp where
  | negate
  | not
  deriving DecidableEq, Repr

inductive BinaryOp where
  | add
  | subtract
  | multiply
  | divide
  | equal
  | notEqual
  | less
  | lessEqual
  | greater
  | greaterEqual
  deriving DecidableEq, Repr

inductive LogicalOp where
  | and
  | or
  deriving DecidableEq, Repr

def UnaryOp.text : UnaryOp → String
  | .negate => "-"
  | .not => "!"

def BinaryOp.text : BinaryOp → String
  | .add => "+"
  | .subtract => "-"
  | .multiply => "*"
  | .divide => "/"
  | .equal => "=="
  | .notEqual => "!="
  | .less => "<"
  | .lessEqual => "<="
  | .greater => ">"
  | .greaterEqual => ">="

def LogicalOp.text : LogicalOp → String
  | .and => "and"
  | .or => "or"

abbrev Depth := Option Nat

mutual

/-- Expressions. The line of a call is that of its closing bracket, that of an operation the line of its
operator. -/
inductive Expr where
  | literal (value : Literal) (line : Nat)
  | unary (op : UnaryOp) (right : Expr) (line : Nat)
  | binary (left : Expr) (op : BinaryOp) (right : Expr) (line : Nat)
  | logical (left : Expr) (op : LogicalOp) (right : Expr) (line : Nat)
  | ternary (condition thenBranch elseBranch : Expr) (line : Nat)
  | grouping (inner : Expr)
  | var (name : Ident) (depth : Depth)
  | assign (name : Ident) (value : Expr) (depth : Depth)
  | call (callee : Expr) (arguments : List Expr) (line : Nat)
  | get (object : Expr) (name : Ident)
  | set (object : Expr) (name : Ident) (value : Expr)
  | this (keyword : Ident) (depth : Depth)
  | lambda (decl : FunctionDecl)

/-- Statements. There is no loop but `whileLoop`: the parser writes others in terms of it. -/
inductive Stmt where
  | expression (value : Expr)
  | print (value : Expr)
  | varDecl (name : Ident) (initializer : Option Expr)
  | block (body : List Stmt)
  | ifElse (condition : Expr) (thenBranch : Stmt) (elseBranch : Option Stmt)
  | whileLoop (condition : Expr) (body : Stmt)
  | funDecl (decl : FunctionDecl)
  | classDecl (decl : ClassDecl)
  | returnStmt (keyword : Ident) (value : Option Expr)

/-- Functions, methods and lambdas; a lambda has no name and the line of its `fun`. -/
structure FunctionDecl where
  name : Option Ident
  params : List Ident
  body : List Stmt
  line : Nat

structure ClassDecl where
  name : Ident
  superclass : Option Expr
  methods : List FunctionDecl
  classMethods : List FunctionDecl

end

abbrev Program := List Stmt

def Expr.line : Expr → Nat
  | .literal _ line => line
  | .unary _ _ line => line
  | .binary _ _ _ line => line
  | .logical _ _ _ line => line
  | .ternary _ _ _ line => line
  | .grouping inner => inner.line
  | .var name _ => name.line
  | .assign name _ _ => name.line
  | .call _ _ line => line
  | .get _ name => name.line
  | .set _ name _ => name.line
  | .this keyword _ => keyword.line
  | .lambda decl => decl.line

namespace FunctionDecl

def arity (decl : FunctionDecl) : Nat := decl.params.length

def label (decl : FunctionDecl) : String :=
  match decl.name with
  | some name => name.name
  | none => "<lambda>"

def isInitializer (decl : FunctionDecl) : Bool := decl.label == "init"

end FunctionDecl
end Treewalk
