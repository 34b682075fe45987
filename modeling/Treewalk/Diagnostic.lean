/-! Everything a program can be told is wrong with it: causes as data, one wording for each cause. -/
namespace Treewalk

inductive LexicalFault where
  | unexpectedCharacter (c : Char)
  | unterminatedString
  deriving DecidableEq, Repr

def LexicalFault.text : LexicalFault → String
  | .unexpectedCharacter c => "Unexpected character: " ++ String.ofList [c]
  | .unterminatedString => "Unterminated string."

structure LexicalError where
  line : Nat
  fault : LexicalFault
  deriving DecidableEq, Repr

inductive FunctionRole where
  | function
  | method
  deriving DecidableEq, Repr

def FunctionRole.text : FunctionRole → String
  | .function => "function"
  | .method => "method"

inductive Expected where
  | className
  | superclassName
  | classBody
  | classBodyEnd
  | functionName (role : FunctionRole)
  | functionParameters (role : FunctionRole)
  | functionBody (role : FunctionRole)
  | lambdaParameters
  | lambdaBody
  | parameterName
  | parametersEnd
  | variableName
  | variableEnd
  | forClauses
  | loopConditionEnd
  | forClausesEnd
  | ifCondition
  | whileCondition
  | conditionEnd
  | printEnd
  | expressionEnd
  | returnEnd
  | blockEnd
  | conditionalColon
  | propertyName
  | argumentsEnd
  | groupingEnd
  | expression
  | endOfExpression
  deriving DecidableEq, Repr

def Expected.text : Expected → String
  | .className => "Expected class name"
  | .superclassName => "Expected superclass name"
  | .classBody => "Expected '\x7b' before class body"
  | .classBodyEnd => "Expected '\x7d' after class body"
  | .functionName role => "Expected " ++ role.text ++ " name"
  | .functionParameters role => "Expected '(' after " ++ role.text ++ " name"
  | .functionBody role => "Expected '\x7b' before " ++ role.text ++ " body"
  | .lambdaParameters => "Expected '(' after 'fun'"
  | .lambdaBody => "Expected '\x7b' before lambda body"
  | .parameterName => "Expected parameter name"
  | .parametersEnd => "Expected ')' after parameters"
  | .variableName => "Expected variable name"
  | .variableEnd => "Expected ';' after variable declaration"
  | .forClauses => "Expected '(' after 'for'"
  | .loopConditionEnd => "Expected ';' after loop condition"
  | .forClausesEnd => "Expected ')' after for clauses"
  | .ifCondition => "Expected '(' after 'if'"
  | .whileCondition => "Expected '(' after 'while'"
  | .conditionEnd => "Expected ')' after condition"
  | .printEnd => "Expected ';' after value"
  | .expressionEnd => "Expected ';' after expression"
  | .returnEnd => "Expected ';' after return value"
  | .blockEnd => "Expected '\x7d' after block"
  | .conditionalColon => "Expected ':' in conditional expression"
  | .propertyName => "Expected property name after '.'"
  | .argumentsEnd => "Expected ')' after arguments"
  | .groupingEnd => "Expected ')' after expression"
  | .expression => "Expected expression"
  | .endOfExpression => "Expected end of expression"

inductive SyntaxFault where
  | expected (what : Expected) (found : String)
  | tooManyParameters
  | tooManyArguments
  | invalidAssignmentTarget
  deriving DecidableEq, Repr

def SyntaxFault.text : SyntaxFault → String
  | .expected what found => what.text ++ ", found '" ++ found ++ "'"
  | .tooManyParameters => "Cannot have more than 255 parameters"
  | .tooManyArguments => "Cannot have more than 255 arguments"
  | .invalidAssignmentTarget => "Invalid assignment target"

structure SyntaxError where
  line : Nat
  fault : SyntaxFault
  deriving DecidableEq, Repr

inductive ScopeFault where
  | duplicateLocal
  | readInOwnInitializer
  | returnAtTopLevel
  | valueFromInitializer
  | thisOutsideClass
  | thisInClassMethod
  | inheritsFromItself
  deriving DecidableEq, Repr

def ScopeFault.text : ScopeFault → String
  | .duplicateLocal => "Already a variable with this name in this scope."
  | .readInOwnInitializer => "Can't read local variable in its own initializer."
  | .returnAtTopLevel => "Can't return from top-level code."
  | .valueFromInitializer =>
    "Can't return a value from an initializer; 'init' always returns the new instance."
  | .thisOutsideClass => "Can't use 'this' outside of a class."
  | .thisInClassMethod => "Can't use 'this' in an unbound method."
  | .inheritsFromItself => "A class can't inherit from itself."

structure ScopeError where
  line : Nat
  lexeme : String
  fault : ScopeFault
  deriving DecidableEq, Repr

inductive TypeTag where
  | nil
  | boolean
  | number
  | string
  | function
  | classObject
  | instanceObject
  deriving DecidableEq, Repr

def TypeTag.text : TypeTag → String
  | .nil => "nil"
  | .boolean => "boolean"
  | .number => "number"
  | .string => "string"
  | .function => "function"
  | .classObject => "class"
  | .instanceObject => "instance"

inductive RuntimeFault where
  | undefinedVariable (name : String)
  | undefinedProperty (name : String)
  | operandNotNumber (got : TypeTag)
  | operandsNotNumbers (left right : TypeTag)
  | operandsNotAddable (left right : TypeTag)
  | noProperties (got : TypeTag)
  | noFields
  | superclassNotClass (got : TypeTag)
  | notCallable
  | arityMismatch (expected got : Nat)
  | stackOverflow (limit : Nat)
  | host (message : String)
  deriving DecidableEq, Repr

def RuntimeFault.text : RuntimeFault → String
  | .undefinedVariable name => "Undefined variable '" ++ name ++ "'."
  | .undefinedProperty name => "Undefined property '" ++ name ++ "'."
  | .operandNotNumber got => "Operand must be a number, got " ++ got.text ++ "."
  | .operandsNotNumbers left right =>
    "Operands must be numbers, got " ++ left.text ++ " and " ++ right.text ++ "."
  | .operandsNotAddable left right =>
    "Operands must be two numbers or two strings, got " ++ left.text ++ " and " ++ right.text ++ "."
  | .noProperties got => "Only instances have properties, got " ++ got.text ++ "."
  | .noFields => "Only instances have fields."
  | .superclassNotClass got => "Superclass must be a class, got " ++ got.text ++ "."
  | .notCallable => "Can only call functions and classes."
  | .arityMismatch expected got =>
    "Expected " ++ Nat.repr expected ++ " arguments but got " ++ Nat.repr got ++ "."
  | .stackOverflow limit => "Stack overflow: more than " ++ Nat.repr limit ++ " nested calls."
  | .host message => message

structure RuntimeError where
  line : Nat
  fault : RuntimeFault
  deriving DecidableEq, Repr

def RuntimeError.message (e : RuntimeError) : String :=
  e.fault.text ++ "\n[line " ++ Nat.repr e.line ++ "]"

inductive Diagnostic where
  | lexical (error : LexicalError)
  | syntactic (error : SyntaxError)
  | scope (error : ScopeError)
  | runtime (error : RuntimeError)
  deriving DecidableEq, Repr

namespace Diagnostic

def line : Diagnostic → Nat
  | .lexical e => e.line
  | .syntactic e => e.line
  | .scope e => e.line
  | .runtime e => e.line

def isStatic : Diagnostic → Bool
  | .runtime _ => false
  | _ => true

def message : Diagnostic → String
  | .lexical e => "[line " ++ Nat.repr e.line ++ "] Error: " ++ e.fault.text
  | .syntactic e => "[line " ++ Nat.repr e.line ++ "] Error: " ++ e.fault.text
  | .scope e => "[line " ++ Nat.repr e.line ++ "] Error at '" ++ e.lexeme ++ "': " ++ e.fault.text
  | .runtime e => e.message

end Diagnostic
end Treewalk
