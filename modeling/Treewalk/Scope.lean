import Treewalk.Syntax
import Treewalk.Table
import Treewalk.Diagnostic

/-! Scope resolution: one walk over a program that fills the depth slots of local names and finds every
static violation, in the order of the walk. Blocks open a scope, functions two (parameters and body), classes
one that holds `this`; names found in no scope are global and keep an empty slot. -/
namespace Treewalk

inductive FunctionContext where
  | none
  | function
  | lambda
  | method
  | initializer
  | classMethod
  deriving DecidableEq, Repr

/-- Names declared in one scope; the flag tells whether the declaration is complete. -/
abbrev Scope := Table Bool

structure ScopeContext where
  scopes : List Scope
  function : FunctionContext
  inClass : Bool
  errors : List ScopeError
  deriving DecidableEq, Repr

def ScopeContext.outermost : ScopeContext := ⟨[], .none, false, []⟩

abbrev Walk := StateM ScopeContext

namespace Walk

def report (name : Ident) (fault : ScopeFault) : Walk Unit :=
  modify fun c => { c with errors := c.errors ++ [⟨name.line, name.name, fault⟩] }

/-- Enters a name into the innermost scope as not yet complete. At top level nothing is entered. -/
def declare (name : Ident) : Walk Unit := do
  let c ← get
  match c.scopes with
  | [] => return ()
  | scope :: outer =>
    if scope.contains name.name then report name .duplicateLocal
    else set { c with scopes := scope.insert name.name false :: outer }

def define (name : Ident) : Walk Unit :=
  modify fun c =>
    match c.scopes with
    | [] => c
    | scope :: outer => { c with scopes := scope.insert name.name true :: outer }

def declareAll : List Ident → Walk Unit
  | [] => return ()
  | name :: rest => do
    declare name
    define name
    declareAll rest

def inScope (scope : Scope) (inner : Walk α) : Walk α := do
  modify fun c => { c with scopes := scope :: c.scopes }
  let a ← inner
  modify fun c => { c with scopes := c.scopes.tail }
  return a

def inFunction (kind : FunctionContext) (inner : Walk α) : Walk α := do
  let outer := (← get).function
  modify fun c => { c with function := kind }
  let a ← inner
  modify fun c => { c with function := outer }
  return a

def inClass (inner : Walk α) : Walk α := do
  let outer := (← get).inClass
  modify fun c => { c with inClass := true }
  let a ← inner
  modify fun c => { c with inClass := outer }
  return a

/-- The slot of a name: how many scopes out it is declared. A global name keeps its slot as it is. -/
def slot (name : Ident) (old : Depth) : Walk Depth := do
  match (← get).scopes.findIdx? (·.contains name.name) with
  | some depth => return some depth
  | none => return old

def checkInitialized (name : Ident) : Walk Unit := do
  match (← get).scopes with
  | scope :: _ => if scope.find? name.name == some false then report name .readInOwnInitializer
  | [] => return ()

def thisSlot (keyword : Ident) (old : Depth) : Walk Depth := do
  let c ← get
  if !c.inClass then
    report keyword .thisOutsideClass
    return old
  else if c.function == .classMethod then
    report keyword .thisInClassMethod
    return old
  else slot keyword old

def checkReturn (keyword : Ident) : Walk Unit := do
  if (← get).function == .none then report keyword .returnAtTopLevel

def checkReturnValue (keyword : Ident) : Walk Unit := do
  if (← get).function == .initializer then report keyword .valueFromInitializer

def checkSuperclass (name : Ident) : Expr → Walk Unit
  | .var superclass _ => do
    if superclass.name == name.name then report superclass .inheritsFromItself
  | _ => return ()

end Walk

open Walk

def Scope.ofThis : Scope := Table.empty.insert "this" true

def FunctionDecl.methodContext (decl : FunctionDecl) : FunctionContext :=
  if decl.isInitializer then .initializer else .method

mutual

def Expr.resolve : Expr → Walk Expr
  | .literal value line => return .literal value line
  | .unary op right line => return .unary op (← right.resolve) line
  | .binary left op right line => return .binary (← left.resolve) op (← right.resolve) line
  | .logical left op right line => return .logical (← left.resolve) op (← right.resolve) line
  | .ternary condition thenBranch elseBranch line =>
    return .ternary (← condition.resolve) (← thenBranch.resolve) (← elseBranch.resolve) line
  | .grouping inner => return .grouping (← inner.resolve)
  | .var name depth => do
    checkInitialized name
    return .var name (← slot name depth)
  | .assign name value depth => return .assign name (← value.resolve) (← slot name depth)
  | .call callee arguments line => return .call (← callee.resolve) (← Expr.resolveList arguments) line
  | .get object name => return .get (← object.resolve) name
  | .set object name value => return .set (← object.resolve) name (← value.resolve)
  | .this keyword depth => return .this keyword (← thisSlot keyword depth)
  | .lambda decl => return .lambda (← decl.resolve .lambda)

def Expr.resolveList : List Expr → Walk (List Expr)
  | [] => return []
  | e :: rest => return (← e.resolve) :: (← Expr.resolveList rest)

def Stmt.resolve : Stmt → Walk Stmt
  | .expression value => return .expression (← value.resolve)
  | .print value => return .print (← value.resolve)
  | .varDecl name none => do
    declare name
    define name
    return .varDecl name none
  | .varDecl name (some initializer) => do
    declare name
    let initializer ← initializer.resolve
    define name
    return .varDecl name (some initializer)
  | .block body => return .block (← inScope .empty (Stmt.resolveList body))
  | .ifElse condition thenBranch none => return .ifElse (← condition.resolve) (← thenBranch.resolve) none
  | .ifElse condition thenBranch (some elseBranch) =>
    return .ifElse (← condition.resolve) (← thenBranch.resolve) (some (← elseBranch.resolve))
  | .whileLoop condition body => return .whileLoop (← condition.resolve) (← body.resolve)
  | .funDecl decl => do
    if let some name := decl.name then
      declare name
      define name
    return .funDecl (← decl.resolve .function)
  | .classDecl decl => return .classDecl (← decl.resolve)
  | .returnStmt keyword none => do
    checkReturn keyword
    return .returnStmt keyword none
  | .returnStmt keyword (some value) => do
    checkReturn keyword
    checkReturnValue keyword
    return .returnStmt keyword (some (← value.resolve))

def Stmt.resolveList : List Stmt → Walk (List Stmt)
  | [] => return []
  | s :: rest => return (← s.resolve) :: (← Stmt.resolveList rest)

def FunctionDecl.resolve (kind : FunctionContext) : FunctionDecl → Walk FunctionDecl
  | ⟨name, params, body, line⟩ => inFunction kind <| inScope .empty do
    declareAll params
    return ⟨name, params, ← inScope .empty (Stmt.resolveList body), line⟩

def FunctionDecl.resolveMethods : List FunctionDecl → Walk (List FunctionDecl)
  | [] => return []
  | f :: rest => return (← f.resolve f.methodContext) :: (← FunctionDecl.resolveMethods rest)

def FunctionDecl.resolveClassMethods : List FunctionDecl → Walk (List FunctionDecl)
  | [] => return []
  | f :: rest => return (← f.resolve .classMethod) :: (← FunctionDecl.resolveClassMethods rest)

def ClassDecl.resolveSuperclass (name : Ident) : Option Expr → Walk (Option Expr)
  | none => return none
  | some superclass => do
    checkSuperclass name superclass
    return some (← superclass.resolve)

def ClassDecl.resolve : ClassDecl → Walk ClassDecl
  | ⟨name, superclass, methods, classMethods⟩ => inClass do
    declare name
    define name
    let superclass ← ClassDecl.resolveSuperclass name superclass
    inScope .ofThis do
      return ⟨name, superclass, ← FunctionDecl.resolveMethods methods,
        ← FunctionDecl.resolveClassMethods classMethods⟩

end

def Program.resolve (program : Program) : Program × List ScopeError :=
  let (resolved, context) := Stmt.resolveList program .outermost
  (resolved, context.errors)

def Expr.resolveAlone (e : Expr) : Expr × List ScopeError :=
  let (resolved, context) := e.resolve .outermost
  (resolved, context.errors)

end Treewalk
