import Treewalk.Syntax.Parse

/-! The parser by positions: a walk over the whole token list that keeps the index of the current token, reads every
token through a check of its index, and has no bound of its own on how deep its productions or how long its loops go.
What stops it otherwise is told apart from syntax errors. The walk also writes down where it was, what each round of a
loop moved over and what each recovery skipped. -/
namespace Treewalk

inductive Stop where
  | fault (e : SyntaxError)
  | outside (index : Nat)
  | exhausted
  deriving DecidableEq, Repr

structure Walker where
  tokens : List Token
  current : Nat
  errors : List SyntaxError
  path : List Nat
  rounds : List (Nat × Nat)
  recoveries : List (Nat × Nat)
  deriving DecidableEq, Repr

def Walker.start (tokens : List Token) : Walker := ⟨tokens, 0, [], [0], [], []⟩

abbrev Indexed := EStateM Stop Walker

namespace Indexed

def stop (e : Stop) : Indexed α := fun s => .error e s

def token (i : Nat) : Indexed Token := fun s =>
  match s.tokens[i]? with
  | some t => .ok t s
  | none => .error (.outside i) s

def peek : Indexed Token := fun s => token (min s.current (s.tokens.length - 1)) s

def previous : Indexed Token := fun s => token (s.current - 1) s

def atEnd : Indexed Bool := do
  return (← peek).kind.agrees .eof

def check (k : Kind) : Indexed Bool := do
  if ← atEnd then return false else return (← peek).kind.agrees k

def checkNext (k : Kind) : Indexed Bool := fun s => .ok (s.tokens[s.current + 1]?.any (·.kind.agrees k)) s

def move (i : Nat) : Indexed Unit := fun s => .ok () { s with current := i, path := s.path ++ [i] }

def advance : Indexed Token := fun s => (do
  if ← atEnd then move s.current else move (s.current + 1)
  previous) s

def failAt (line : Nat) (fault : SyntaxFault) : Indexed α := stop (.fault ⟨line, fault⟩)

def failHere (fault : SyntaxFault) : Indexed α := do
  failAt (← peek).line fault

def unexpected (what : Expected) : Indexed α := do
  let t ← peek
  failAt t.line (.expected what t.lexeme)

def accept (k : Kind) : Indexed (Option Token) := do
  if ← check k then return some (← advance) else return none

def expect (k : Kind) (what : Expected) : Indexed Token := do
  if ← check k then advance else unexpected what

def ident (what : Expected) : Indexed Ident := do
  let t ← expect .identifier what
  return ⟨t.lexeme, t.line⟩

def operator (table : Kind → Option α) : Indexed (Option (α × Nat)) := do
  match table (← peek).kind with
  | some op => return some (op, (← advance).line)
  | none => return none

def noting (note : Nat × Nat → Walker → Walker) (part : Indexed α) : Indexed α := fun s =>
  match part s with
  | .ok a after => .ok a (note (s.current, after.current) after)
  | .error e after => .error e after

def grow (step : α → Indexed (Option α)) : Nat → α → Indexed α
  | 0, _ => stop .exhausted
  | limit + 1, a => do
    match ← step a with
    | some larger => grow step limit larger
    | none => return a

def round (item : Indexed α) : Indexed α := noting (fun span s => { s with rounds := s.rounds ++ [span] }) item

def collect (done : Indexed Bool) (item : Indexed (Option α)) : Nat → Indexed (List α)
  | 0 => stop .exhausted
  | limit + 1 => do
    if ← done then return []
    else
      let x ← round item
      let xs ← collect done item limit
      return x.toList ++ xs

def operation (table : Kind → Option α) (build : Expr → α → Expr → Nat → Expr) (operand : Indexed Expr)
    (left : Expr) : Indexed (Option Expr) := do
  match ← operator table with
  | some (op, line) => return some (build left op (← operand) line)
  | none => return none

def leftAssoc (limit : Nat) (table : Kind → Option α) (build : Expr → α → Expr → Nat → Expr)
    (operand : Indexed Expr) : Indexed Expr := do
  let first ← operand
  grow (operation table build operand) limit first

def commaList (item : Indexed α) (full : SyntaxFault) : Nat → Indexed (List α)
  | 0 => failHere full
  | room + 1 => do
    let x ← item
    match ← accept (.symbol .comma) with
    | some _ => return x :: (← commaList item full room)
    | none => return [x]

def bracketed (item : Indexed α) (full : SyntaxFault) (close : Expected) : Indexed (List α × Token) := do
  let items ← if ← check (.symbol .rightParen) then pure [] else commaList item full maxArguments
  let last ← expect (.symbol .rightParen) close
  return (items, last)

def parameters : Indexed (List Ident) := do
  let (params, _) ← bracketed (ident .parameterName) .tooManyParameters .parametersEnd
  return params

def atBlockEnd : Indexed Bool := do
  return (← check (.symbol .rightBrace)) || (← atEnd)

def skipping : Nat → Indexed Unit
  | 0 => stop .exhausted
  | limit + 1 => do
    if ← atEnd then return ()
    else if (← previous).kind.agrees (.symbol .semicolon) then return ()
    else if (← peek).startsStatement then return ()
    else
      let _ ← advance
      skipping limit

def synchronize (limit : Nat) : Indexed Unit :=
  noting (fun span s => { s with recoveries := s.recoveries ++ [span] }) do
    let _ ← advance
    skipping limit

end Indexed

open Indexed

structure Productions where
  limit : Nat
  expression : Indexed Expr
  ternary : Indexed Expr
  unary : Indexed Expr
  statement : Indexed Stmt
  declaration : Indexed (Option Stmt)

namespace Productions

def block (i : Productions) : Indexed (List Stmt) := do
  let body ← collect atBlockEnd i.declaration i.limit
  let _ ← expect (.symbol .rightBrace) .blockEnd
  return body

def lambda (i : Productions) (line : Nat) : Indexed Expr := do
  let _ ← expect (.symbol .leftParen) .lambdaParameters
  let params ← parameters
  let _ ← expect (.symbol .leftBrace) .lambdaBody
  let body ← i.block
  return .lambda ⟨none, params, body, line⟩

def primary (i : Productions) : Indexed Expr := do
  let t ← peek
  match t.kind with
  | .keyword .kwFalse =>
    let _ ← advance
    return .literal (.bool false) t.line
  | .keyword .kwTrue =>
    let _ ← advance
    return .literal (.bool true) t.line
  | .keyword .kwNil =>
    let _ ← advance
    return .literal .nil t.line
  | .number value =>
    let _ ← advance
    return .literal (.number value) t.line
  | .string contents =>
    let _ ← advance
    return .literal (.string contents) t.line
  | .identifier =>
    let _ ← advance
    return .var ⟨t.lexeme, t.line⟩ none
  | .keyword .kwThis =>
    let _ ← advance
    return .this ⟨t.lexeme, t.line⟩ none
  | .keyword .kwFun =>
    let _ ← advance
    i.lambda t.line
  | .symbol .leftParen =>
    let _ ← advance
    let inner ← i.expression
    let _ ← expect (.symbol .rightParen) .groupingEnd
    return .grouping inner
  | _ => unexpected .expression

def suffix (i : Productions) (e : Expr) : Indexed (Option Expr) := do
  match (← peek).kind with
  | .symbol .leftParen =>
    let _ ← advance
    let (arguments, close) ← bracketed i.expression .tooManyArguments .argumentsEnd
    return some (.call e arguments close.line)
  | .symbol .dot =>
    let _ ← advance
    return some (.get e (← ident .propertyName))
  | _ => return none

def callRule (i : Productions) : Indexed Expr := do
  let e ← i.primary
  grow i.suffix i.limit e

def unaryRule (i : Productions) : Indexed Expr := do
  match ← operator UnaryOp.ofPrefix? with
  | some (op, line) => return .unary op (← i.unary) line
  | none => i.callRule

def factorRule (i : Productions) : Indexed Expr := leftAssoc i.limit BinaryOp.ofFactor? .binary i.unaryRule

def termRule (i : Productions) : Indexed Expr := leftAssoc i.limit BinaryOp.ofTerm? .binary i.factorRule

def comparisonRule (i : Productions) : Indexed Expr := leftAssoc i.limit BinaryOp.ofComparison? .binary i.termRule

def equalityRule (i : Productions) : Indexed Expr := leftAssoc i.limit BinaryOp.ofEquality? .binary i.comparisonRule

def andRule (i : Productions) : Indexed Expr := leftAssoc i.limit LogicalOp.ofAnd? .logical i.equalityRule

def orRule (i : Productions) : Indexed Expr := leftAssoc i.limit LogicalOp.ofOr? .logical i.andRule

def ternaryRule (i : Productions) : Indexed Expr := do
  let condition ← i.orRule
  match ← accept (.symbol .question) with
  | some question =>
    let thenBranch ← i.expression
    let _ ← expect (.symbol .colon) .conditionalColon
    let elseBranch ← i.ternary
    return .ternary condition thenBranch elseBranch question.line
  | none => return condition

def expressionRule (i : Productions) : Indexed Expr := do
  let target ← i.ternaryRule
  match ← accept (.symbol .equal) with
  | some equal =>
    let value ← i.expression
    match target with
    | .var name _ => return .assign name value none
    | .get object name => return .set object name value
    | _ => failAt equal.line .invalidAssignmentTarget
  | none => return target

def expressionStatement (i : Productions) : Indexed Stmt := do
  let e ← i.expressionRule
  let _ ← expect (.symbol .semicolon) .expressionEnd
  return .expression e

def varDeclaration (i : Productions) : Indexed Stmt := do
  let name ← ident .variableName
  let initializer ← match ← accept (.symbol .equal) with
    | some _ => some <$> i.expression
    | none => pure none
  let _ ← expect (.symbol .semicolon) .variableEnd
  return .varDecl name initializer

def forInitializer (i : Productions) : Indexed (Option Stmt) := do
  match (← peek).kind with
  | .symbol .semicolon =>
    let _ ← advance
    return none
  | .keyword .kwVar =>
    let _ ← advance
    return some (← i.varDeclaration)
  | _ => return some (← i.expressionStatement)

def optionalExpression (i : Productions) (last : Kind) : Indexed (Option Expr) := do
  if ← check last then return none else return some (← i.expression)

def forStatement (i : Productions) (line : Nat) : Indexed Stmt := do
  let _ ← expect (.symbol .leftParen) .forClauses
  let initializer ← i.forInitializer
  let condition ← i.optionalExpression (.symbol .semicolon)
  let _ ← expect (.symbol .semicolon) .loopConditionEnd
  let increment ← i.optionalExpression (.symbol .rightParen)
  let _ ← expect (.symbol .rightParen) .forClausesEnd
  let body ← i.statement
  return Phrases.forLoop line initializer condition increment body

def ifStatement (i : Productions) : Indexed Stmt := do
  let _ ← expect (.symbol .leftParen) .ifCondition
  let condition ← i.expression
  let _ ← expect (.symbol .rightParen) .conditionEnd
  let thenBranch ← i.statement
  let elseBranch ← match ← accept (.keyword .kwElse) with
    | some _ => some <$> i.statement
    | none => pure none
  return .ifElse condition thenBranch elseBranch

def whileStatement (i : Productions) : Indexed Stmt := do
  let _ ← expect (.symbol .leftParen) .whileCondition
  let condition ← i.expression
  let _ ← expect (.symbol .rightParen) .conditionEnd
  let body ← i.statement
  return .whileLoop condition body

def returnStatement (i : Productions) (keyword : Ident) : Indexed Stmt := do
  let value ← i.optionalExpression (.symbol .semicolon)
  let _ ← expect (.symbol .semicolon) .returnEnd
  return .returnStmt keyword value

def printStatement (i : Productions) : Indexed Stmt := do
  let value ← i.expression
  let _ ← expect (.symbol .semicolon) .printEnd
  return .print value

def statementRule (i : Productions) : Indexed Stmt := do
  let t ← peek
  match t.kind with
  | .keyword .kwFor =>
    let _ ← advance
    i.forStatement t.line
  | .keyword .kwIf =>
    let _ ← advance
    i.ifStatement
  | .keyword .kwWhile =>
    let _ ← advance
    i.whileStatement
  | .keyword .kwReturn =>
    let _ ← advance
    i.returnStatement ⟨t.lexeme, t.line⟩
  | .symbol .leftBrace =>
    let _ ← advance
    return .block (← i.block)
  | .keyword .kwPrint =>
    let _ ← advance
    i.printStatement
  | _ => i.expressionStatement

def function (i : Productions) (role : FunctionRole) : Indexed FunctionDecl := do
  let name ← ident (.functionName role)
  let _ ← expect (.symbol .leftParen) (.functionParameters role)
  let params ← parameters
  let _ ← expect (.symbol .leftBrace) (.functionBody role)
  let body ← i.block
  return ⟨some name, params, body, name.line⟩

def method (i : Productions) : Indexed (Option (Bool × FunctionDecl)) := do
  match ← accept (.keyword .kwClass) with
  | some _ => return some (true, ← i.function .method)
  | none => return some (false, ← i.function .method)

def superclass : Indexed (Option Expr) := do
  match ← accept (.symbol .less) with
  | some _ => return some (.var (← ident .superclassName) none)
  | none => return none

def members (i : Productions) : Indexed (List (Bool × FunctionDecl)) := do
  let _ ← expect (.symbol .leftBrace) .classBody
  let members ← collect atBlockEnd i.method i.limit
  let _ ← expect (.symbol .rightBrace) .classBodyEnd
  return members

def classDeclaration (i : Productions) : Indexed Stmt := do
  let name ← ident .className
  let superclass ← superclass
  let members ← i.members
  let methods := members.filter (fun m => !m.1)
  let classMethods := members.filter (fun m => m.1)
  return .classDecl ⟨name, superclass, methods.map (·.2), classMethods.map (·.2)⟩

def plainDeclaration (i : Productions) : Indexed Stmt := do
  match (← peek).kind with
  | .keyword .kwClass =>
    let _ ← advance
    i.classDeclaration
  | .keyword .kwFun =>
    if ← checkNext .identifier then
      let _ ← advance
      return .funDecl (← i.function .function)
    else i.statementRule
  | .keyword .kwVar =>
    let _ ← advance
    i.varDeclaration
  | _ => i.statementRule

/- Only syntax errors are recovered from. -/
def declarationRule (i : Productions) : Indexed (Option Stmt) := fun s =>
  match i.plainDeclaration s with
  | .ok d after => .ok (some d) after
  | .error (.fault e) after => (do synchronize i.limit; return none) { after with errors := after.errors ++ [e] }
  | .error e after => .error e after

def next (i : Productions) : Productions where
  limit := i.limit
  expression := i.expressionRule
  ternary := i.ternaryRule
  unary := i.unaryRule
  statement := i.statementRule
  declaration := i.declarationRule

def bottom (limit : Nat) : Productions where
  limit
  expression := stop .exhausted
  ternary := stop .exhausted
  unary := stop .exhausted
  statement := stop .exhausted
  declaration := stop .exhausted

def upTo (limit : Nat) : Nat → Productions
  | 0 => bottom limit
  | depth + 1 => (upTo limit depth).next

end Productions

def indexedProgram (limit : Nat) (tokens : List Token) : EStateM.Result Stop Walker Program :=
  collect atEnd (Productions.upTo limit limit).declaration limit (.start tokens)

def indexedExpression (limit : Nat) (tokens : List Token) : EStateM.Result Stop Walker Expr := (do
  let e ← (Productions.upTo limit limit).expression
  if ← atEnd then return e else unexpected .endOfExpression) (.start tokens)

end Treewalk
