import Treewalk.Syntax
import Treewalk.Token
import Treewalk.Diagnostic

/-! Parsing by recursive descent. `Phrases` holds the parsers that the grammar uses inside itself; a rule of
the grammar is a function of them, and `Phrases.upTo n` ties the knot for texts of at most `n` tokens. Every
use of an inner phrase comes after a token was consumed, so as many levels suffice as there are tokens. -/
namespace Treewalk

def maxArguments : Nat := 255

structure Cursor where
  rest : List Token
  errors : List SyntaxError
  deriving DecidableEq, Repr

/-- Stands for the end where a token list lacks its end token. -/
def Token.missingEnd : Token := ⟨.eof, "", 0⟩

namespace Cursor

def peek (c : Cursor) : Token := c.rest.headD Token.missingEnd

def atEnd (c : Cursor) : Bool := c.peek.kind.agrees .eof

end Cursor

def Token.startsStatement (t : Token) : Bool :=
  match t.kind with
  | .keyword .kwClass | .keyword .kwFun | .keyword .kwVar | .keyword .kwFor
  | .keyword .kwIf | .keyword .kwWhile | .keyword .kwPrint | .keyword .kwReturn => true
  | _ => false

/-- Skips after `last` to a place where a statement may start: after a semicolon, before a keyword that
starts one, or at the end. -/
def skipToStatement (last : Token) : List Token → List Token
  | [] => []
  | t :: rest =>
    if t.kind.agrees .eof || last.kind.agrees (.symbol .semicolon) || t.startsStatement then t :: rest
    else skipToStatement t rest

namespace Cursor

def synchronize (c : Cursor) : Cursor :=
  match c.rest with
  | [] => c
  | t :: rest => if t.kind.agrees .eof then c else { c with rest := skipToStatement t rest }

def record (c : Cursor) (e : SyntaxError) : Cursor := { c with errors := c.errors ++ [e] }

end Cursor

abbrev Parser := EStateM SyntaxError Cursor

namespace Parser

def peek : Parser Token := fun c => .ok c.peek c

def peekSecond : Parser Token := fun c => .ok (c.rest.tail.headD Token.missingEnd) c

def atEnd : Parser Bool := fun c => .ok c.atEnd c

def check (k : Kind) : Parser Bool := fun c => .ok (c.peek.kind.agrees k) c

def skip : Parser Unit := fun c => .ok () { c with rest := c.rest.tail }

def failAt (line : Nat) (fault : SyntaxFault) : Parser α := fun c => .error ⟨line, fault⟩ c

def failHere (fault : SyntaxFault) : Parser α := do
  failAt (← peek).line fault

def unexpected (what : Expected) : Parser α := do
  let t ← peek
  failAt t.line (.expected what t.lexeme)

def accept (k : Kind) : Parser (Option Token) := do
  let t ← peek
  if t.kind.agrees k then
    skip
    return some t
  else return none

def expect (k : Kind) (what : Expected) : Parser Token := do
  let t ← peek
  if t.kind.agrees k then
    skip
    return t
  else unexpected what

def ident (what : Expected) : Parser Ident := do
  let t ← expect .identifier what
  return ⟨t.lexeme, t.line⟩

def operator (table : Kind → Option α) : Parser (Option (α × Nat)) := do
  let t ← peek
  match table t.kind with
  | some op =>
    skip
    return some (op, t.line)
  | none => return none

def grow (step : α → Parser (Option α)) : List Token → α → Parser α
  | [], a => return a
  | _ :: bound, a => do
    match ← step a with
    | some larger => grow step bound larger
    | none => return a

/-- Each step that adds something consumes a token, so the tokens left bound the steps. -/
def growing (step : α → Parser (Option α)) (a : α) : Parser α := fun c => grow step c.rest a c

def operation (table : Kind → Option α) (build : Expr → α → Expr → Nat → Expr)
    (operand : Parser Expr) (left : Expr) : Parser (Option Expr) := do
  match ← operator table with
  | some (op, line) => return some (build left op (← operand) line)
  | none => return none

def leftAssoc (table : Kind → Option α) (build : Expr → α → Expr → Nat → Expr)
    (operand : Parser Expr) : Parser Expr := do
  let first ← operand
  growing (operation table build operand) first

/-- Items up to where `stop` holds, at most one for every token of the list. An item that was recovered from
leaves nothing. -/
def collect (stop : Parser Bool) (item : Parser (Option α)) : List Token → Parser (List α)
  | [] => return []
  | _ :: bound => do
    if ← stop then return []
    else
      let x ← item
      let xs ← collect stop item bound
      return x.toList ++ xs

def collecting (stop : Parser Bool) (item : Parser (Option α)) : Parser (List α) :=
  fun c => collect stop item c.rest c

def commaList (item : Parser α) (full : SyntaxFault) : Nat → Parser (List α)
  | 0 => failHere full
  | room + 1 => do
    let x ← item
    match ← accept (.symbol .comma) with
    | some _ => return x :: (← commaList item full room)
    | none => return [x]

def bracketed (item : Parser α) (full : SyntaxFault) (close : Expected) : Parser (List α × Token) := do
  let items ← if ← check (.symbol .rightParen) then pure [] else commaList item full maxArguments
  let last ← expect (.symbol .rightParen) close
  return (items, last)

def parameters : Parser (List Ident) := do
  let (params, _) ← bracketed (ident .parameterName) .tooManyParameters .parametersEnd
  return params

def atBlockEnd : Parser Bool := do
  return (← check (.symbol .rightBrace)) || (← atEnd)

end Parser

open Treewalk.Parser

namespace BinaryOp

def ofFactor? : Kind → Option BinaryOp
  | .symbol .star => some .multiply
  | .symbol .slash => some .divide
  | _ => none

def ofTerm? : Kind → Option BinaryOp
  | .symbol .minus => some .subtract
  | .symbol .plus => some .add
  | _ => none

def ofComparison? : Kind → Option BinaryOp
  | .symbol .greater => some .greater
  | .symbol .greaterEqual => some .greaterEqual
  | .symbol .less => some .less
  | .symbol .lessEqual => some .lessEqual
  | _ => none

def ofEquality? : Kind → Option BinaryOp
  | .symbol .bangEqual => some .notEqual
  | .symbol .equalEqual => some .equal
  | _ => none

end BinaryOp

def LogicalOp.ofAnd? : Kind → Option LogicalOp
  | .keyword .kwAnd => some .and
  | _ => none

def LogicalOp.ofOr? : Kind → Option LogicalOp
  | .keyword .kwOr => some .or
  | _ => none

def UnaryOp.ofPrefix? : Kind → Option UnaryOp
  | .symbol .bang => some .not
  | .symbol .minus => some .negate
  | _ => none

structure Phrases where
  expression : Parser Expr
  ternary : Parser Expr
  unary : Parser Expr
  statement : Parser Stmt
  declaration : Parser (Option Stmt)

namespace Phrases

def block (p : Phrases) : Parser (List Stmt) := do
  let body ← collecting atBlockEnd p.declaration
  let _ ← expect (.symbol .rightBrace) .blockEnd
  return body

def lambda (p : Phrases) (line : Nat) : Parser Expr := do
  let _ ← expect (.symbol .leftParen) .lambdaParameters
  let params ← parameters
  let _ ← expect (.symbol .leftBrace) .lambdaBody
  let body ← p.block
  return .lambda ⟨none, params, body, line⟩

def primary (p : Phrases) : Parser Expr := do
  let t ← peek
  match t.kind with
  | .keyword .kwFalse =>
    skip
    return .literal (.bool false) t.line
  | .keyword .kwTrue =>
    skip
    return .literal (.bool true) t.line
  | .keyword .kwNil =>
    skip
    return .literal .nil t.line
  | .number value =>
    skip
    return .literal (.number value) t.line
  | .string contents =>
    skip
    return .literal (.string contents) t.line
  | .identifier =>
    skip
    return .var ⟨t.lexeme, t.line⟩ none
  | .keyword .kwThis =>
    skip
    return .this ⟨t.lexeme, t.line⟩ none
  | .keyword .kwFun =>
    skip
    p.lambda t.line
  | .symbol .leftParen =>
    skip
    let inner ← p.expression
    let _ ← expect (.symbol .rightParen) .groupingEnd
    return .grouping inner
  | _ => unexpected .expression

def suffix (p : Phrases) (e : Expr) : Parser (Option Expr) := do
  match (← peek).kind with
  | .symbol .leftParen =>
    skip
    let (arguments, close) ← bracketed p.expression .tooManyArguments .argumentsEnd
    return some (.call e arguments close.line)
  | .symbol .dot =>
    skip
    return some (.get e (← ident .propertyName))
  | _ => return none

def callRule (p : Phrases) : Parser Expr := do
  let e ← p.primary
  growing p.suffix e

def unaryRule (p : Phrases) : Parser Expr := do
  match ← operator UnaryOp.ofPrefix? with
  | some (op, line) => return .unary op (← p.unary) line
  | none => p.callRule

def factorRule (p : Phrases) : Parser Expr := leftAssoc BinaryOp.ofFactor? .binary p.unaryRule

def termRule (p : Phrases) : Parser Expr := leftAssoc BinaryOp.ofTerm? .binary p.factorRule

def comparisonRule (p : Phrases) : Parser Expr := leftAssoc BinaryOp.ofComparison? .binary p.termRule

def equalityRule (p : Phrases) : Parser Expr := leftAssoc BinaryOp.ofEquality? .binary p.comparisonRule

def andRule (p : Phrases) : Parser Expr := leftAssoc LogicalOp.ofAnd? .logical p.equalityRule

def orRule (p : Phrases) : Parser Expr := leftAssoc LogicalOp.ofOr? .logical p.andRule

def ternaryRule (p : Phrases) : Parser Expr := do
  let condition ← p.orRule
  match ← accept (.symbol .question) with
  | some question =>
    let thenBranch ← p.expression
    let _ ← expect (.symbol .colon) .conditionalColon
    let elseBranch ← p.ternary
    return .ternary condition thenBranch elseBranch question.line
  | none => return condition

/-- An assignment is read as an expression first; only names and properties can be assigned. -/
def expressionRule (p : Phrases) : Parser Expr := do
  let target ← p.ternaryRule
  match ← accept (.symbol .equal) with
  | some equal =>
    let value ← p.expression
    match target with
    | .var name _ => return .assign name value none
    | .get object name => return .set object name value
    | _ => failAt equal.line .invalidAssignmentTarget
  | none => return target

def expressionStatement (p : Phrases) : Parser Stmt := do
  let e ← p.expressionRule
  let _ ← expect (.symbol .semicolon) .expressionEnd
  return .expression e

def varDeclaration (p : Phrases) : Parser Stmt := do
  let name ← ident .variableName
  let initializer ← match ← accept (.symbol .equal) with
    | some _ => some <$> p.expression
    | none => pure none
  let _ ← expect (.symbol .semicolon) .variableEnd
  return .varDecl name initializer

/-- A `for` loop in terms of `while`: the increment runs after the body in a block with it, and the
initializer before the loop in a block around it. -/
def forLoop (line : Nat) (initializer : Option Stmt) (condition increment : Option Expr) (body : Stmt) :
    Stmt :=
  let repeated := match increment with
    | some e => .block [body, .expression e]
    | none => body
  let loop : Stmt := .whileLoop (condition.getD (.literal (.bool true) line)) repeated
  match initializer with
  | some first => .block [first, loop]
  | none => loop

def forInitializer (p : Phrases) : Parser (Option Stmt) := do
  match (← peek).kind with
  | .symbol .semicolon =>
    skip
    return none
  | .keyword .kwVar =>
    skip
    return some (← p.varDeclaration)
  | _ => return some (← p.expressionStatement)

def optionalExpression (p : Phrases) (last : Kind) : Parser (Option Expr) := do
  if ← check last then return none else return some (← p.expression)

def forStatement (p : Phrases) (line : Nat) : Parser Stmt := do
  let _ ← expect (.symbol .leftParen) .forClauses
  let initializer ← p.forInitializer
  let condition ← p.optionalExpression (.symbol .semicolon)
  let _ ← expect (.symbol .semicolon) .loopConditionEnd
  let increment ← p.optionalExpression (.symbol .rightParen)
  let _ ← expect (.symbol .rightParen) .forClausesEnd
  let body ← p.statement
  return forLoop line initializer condition increment body

def ifStatement (p : Phrases) : Parser Stmt := do
  let _ ← expect (.symbol .leftParen) .ifCondition
  let condition ← p.expression
  let _ ← expect (.symbol .rightParen) .conditionEnd
  let thenBranch ← p.statement
  let elseBranch ← match ← accept (.keyword .kwElse) with
    | some _ => some <$> p.statement
    | none => pure none
  return .ifElse condition thenBranch elseBranch

def whileStatement (p : Phrases) : Parser Stmt := do
  let _ ← expect (.symbol .leftParen) .whileCondition
  let condition ← p.expression
  let _ ← expect (.symbol .rightParen) .conditionEnd
  let body ← p.statement
  return .whileLoop condition body

def returnStatement (p : Phrases) (keyword : Ident) : Parser Stmt := do
  let value ← p.optionalExpression (.symbol .semicolon)
  let _ ← expect (.symbol .semicolon) .returnEnd
  return .returnStmt keyword value

def printStatement (p : Phrases) : Parser Stmt := do
  let value ← p.expression
  let _ ← expect (.symbol .semicolon) .printEnd
  return .print value

def statementRule (p : Phrases) : Parser Stmt := do
  let t ← peek
  match t.kind with
  | .keyword .kwFor =>
    skip
    p.forStatement t.line
  | .keyword .kwIf =>
    skip
    p.ifStatement
  | .keyword .kwWhile =>
    skip
    p.whileStatement
  | .keyword .kwReturn =>
    skip
    p.returnStatement ⟨t.lexeme, t.line⟩
  | .symbol .leftBrace =>
    skip
    return .block (← p.block)
  | .keyword .kwPrint =>
    skip
    p.printStatement
  | _ => p.expressionStatement

def function (p : Phrases) (role : FunctionRole) : Parser FunctionDecl := do
  let name ← ident (.functionName role)
  let _ ← expect (.symbol .leftParen) (.functionParameters role)
  let params ← parameters
  let _ ← expect (.symbol .leftBrace) (.functionBody role)
  let body ← p.block
  return ⟨some name, params, body, name.line⟩

def method (p : Phrases) : Parser (Option (Bool × FunctionDecl)) := do
  match ← accept (.keyword .kwClass) with
  | some _ => return some (true, ← p.function .method)
  | none => return some (false, ← p.function .method)

def superclass : Parser (Option Expr) := do
  match ← accept (.symbol .less) with
  | some _ => return some (.var (← ident .superclassName) none)
  | none => return none

def members (p : Phrases) : Parser (List (Bool × FunctionDecl)) := do
  let _ ← expect (.symbol .leftBrace) .classBody
  let members ← collecting atBlockEnd p.method
  let _ ← expect (.symbol .rightBrace) .classBodyEnd
  return members

def classDeclaration (p : Phrases) : Parser Stmt := do
  let name ← ident .className
  let superclass ← superclass
  let members ← p.members
  let methods := members.filter (fun m => !m.1)
  let classMethods := members.filter (fun m => m.1)
  return .classDecl ⟨name, superclass, methods.map (·.2), classMethods.map (·.2)⟩

def plainDeclaration (p : Phrases) : Parser Stmt := do
  match (← peek).kind with
  | .keyword .kwClass =>
    skip
    p.classDeclaration
  | .keyword .kwFun =>
    if (← peekSecond).kind.agrees .identifier then
      skip
      return .funDecl (← p.function .function)
    else p.statementRule
  | .keyword .kwVar =>
    skip
    p.varDeclaration
  | _ => p.statementRule

/-- Errors are recovered from here and nowhere else: the innermost declaration that contains an error is
dropped, the error is recorded, and parsing resumes where a statement may start. -/
def declarationRule (p : Phrases) : Parser (Option Stmt) := fun c =>
  match p.plainDeclaration c with
  | .ok s c => .ok (some s) c
  | .error e c => .ok none (c.record e).synchronize

def next (p : Phrases) : Phrases where
  expression := p.expressionRule
  ternary := p.ternaryRule
  unary := p.unaryRule
  statement := p.statementRule
  declaration := p.declarationRule

def empty : Phrases where
  expression := unexpected .expression
  ternary := unexpected .expression
  unary := unexpected .expression
  statement := unexpected .expression
  declaration := return none

def upTo : Nat → Phrases
  | 0 => empty
  | n + 1 => (upTo n).next

end Phrases

def parseProgram (tokens : List Token) : Except (List SyntaxError) Program :=
  match collecting atEnd (Phrases.upTo tokens.length).declaration ⟨tokens, []⟩ with
  | .ok program c => if c.errors.isEmpty then .ok program else .error c.errors
  | .error e c => .error (c.errors ++ [e])

def wholeExpression (p : Phrases) : Parser Expr := do
  let e ← p.expression
  if ← atEnd then return e else unexpected .endOfExpression

def parseExpression (tokens : List Token) : Except SyntaxError Expr :=
  match wholeExpression (Phrases.upTo tokens.length) ⟨tokens, []⟩ with
  | .ok e _ => .ok e
  | .error e _ => .error e

end Treewalk
