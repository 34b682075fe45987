import Treewalk.Text.Number

/-! Tokens: symbols, keywords, names and literals, each with its lexeme and the line it ends on. -/
namespace Treewalk

inductive Symbol where
  | leftParen
  | rightParen
  | leftBrace
  | rightBrace
  | comma
  | dot
  | minus
  | plus
  | semicolon
  | slash
  | star
  | question
  | colon
  | bang
  | bangEqual
  | equal
  | equalEqual
  | greater
  | greaterEqual
  | less
  | lessEqual
  deriving DecidableEq, Repr

namespace Symbol

def text : Symbol → List Char
  | .leftParen => ['(']
  | .rightParen => [')']
  | .leftBrace => ['{']
  | .rightBrace => ['}']
  | .comma => [',']
  | .dot => ['.']
  | .minus => ['-']
  | .plus => ['+']
  | .semicolon => [';']
  | .slash => ['/']
  | .star => ['*']
  | .question => ['?']
  | .colon => [':']
  | .bang => ['!']
  | .bangEqual => ['!', '=']
  | .equal => ['=']
  | .equalEqual => ['=', '=']
  | .greater => ['>']
  | .greaterEqual => ['>', '=']
  | .less => ['<']
  | .lessEqual => ['<', '=']

def name : Symbol → String
  | .leftParen => "LEFT_PAREN"
  | .rightParen => "RIGHT_PAREN"
  | .leftBrace => "LEFT_BRACE"
  | .rightBrace => "RIGHT_BRACE"
  | .comma => "COMMA"
  | .dot => "DOT"
  | .minus => "MINUS"
  | .plus => "PLUS"
  | .semicolon => "SEMICOLON"
  | .slash => "SLASH"
  | .star => "STAR"
  | .question => "QUESTION"
  | .colon => "COLON"
  | .bang => "BANG"
  | .bangEqual => "BANG_EQUAL"
  | .equal => "EQUAL"
  | .equalEqual => "EQUAL_EQUAL"
  | .greater => "GREATER"
  | .greaterEqual => "GREATER_EQUAL"
  | .less => "LESS"
  | .lessEqual => "LESS_EQUAL"

def single? : Char → Option Symbol
  | '(' => some .leftParen
  | ')' => some .rightParen
  | '{' => some .leftBrace
  | '}' => some .rightBrace
  | ',' => some .comma
  | '.' => some .dot
  | '-' => some .minus
  | '+' => some .plus
  | ';' => some .semicolon
  | '/' => some .slash
  | '*' => some .star
  | '?' => some .question
  | ':' => some .colon
  | '!' => some .bang
  | '=' => some .equal
  | '>' => some .greater
  | '<' => some .less
  | _ => none

def withEqual? : Char → Option Symbol
  | '!' => some .bangEqual
  | '=' => some .equalEqual
  | '>' => some .greaterEqual
  | '<' => some .lessEqual
  | _ => none

end Symbol

inductive Keyword where
  | kwAnd
  | kwClass
  | kwElse
  | kwFalse
  | kwFun
  | kwFor
  | kwIf
  | kwNil
  | kwOr
  | kwPrint
  | kwReturn
  | kwSuper
  | kwThis
  | kwTrue
  | kwVar
  | kwWhile
  deriving DecidableEq, Repr

namespace Keyword

def all : List Keyword :=
  [.kwAnd, .kwClass, .kwElse, .kwFalse, .kwFun, .kwFor, .kwIf, .kwNil, .kwOr, .kwPrint, .kwReturn,
    .kwSuper, .kwThis, .kwTrue, .kwVar, .kwWhile]

def text : Keyword → String
  | .kwAnd => "and"
  | .kwClass => "class"
  | .kwElse => "else"
  | .kwFalse => "false"
  | .kwFun => "fun"
  | .kwFor => "for"
  | .kwIf => "if"
  | .kwNil => "nil"
  | .kwOr => "or"
  | .kwPrint => "print"
  | .kwReturn => "return"
  | .kwSuper => "super"
  | .kwThis => "this"
  | .kwTrue => "true"
  | .kwVar => "var"
  | .kwWhile => "while"

def name : Keyword → String
  | .kwAnd => "AND"
  | .kwClass => "CLASS"
  | .kwElse => "ELSE"
  | .kwFalse => "FALSE"
  | .kwFun => "FUN"
  | .kwFor => "FOR"
  | .kwIf => "IF"
  | .kwNil => "NIL"
  | .kwOr => "OR"
  | .kwPrint => "PRINT"
  | .kwReturn => "RETURN"
  | .kwSuper => "SUPER"
  | .kwThis => "THIS"
  | .kwTrue => "TRUE"
  | .kwVar => "VAR"
  | .kwWhile => "WHILE"

def ofText? (s : String) : Option Keyword := all.find? (fun k => k.text == s)

end Keyword

inductive Kind where
  | symbol (s : Symbol)
  | keyword (k : Keyword)
  | identifier
  | string (contents : String)
  | number (value : Float)
  | eof
  deriving DecidableEq, Repr

namespace Kind

def name : Kind → String
  | .symbol s => s.name
  | .keyword k => k.name
  | .identifier => "IDENTIFIER"
  | .string _ => "STRING"
  | .number _ => "NUMBER"
  | .eof => "EOF"

/-- Kinds agree whatever the literals hold. -/
def agrees : Kind → Kind → Bool
  | .symbol a, .symbol b => a == b
  | .keyword a, .keyword b => a == b
  | .identifier, .identifier => true
  | .string _, .string _ => true
  | .number _, .number _ => true
  | .eof, .eof => true
  | _, _ => false

end Kind

structure Token where
  kind : Kind
  lexeme : String
  line : Nat
  deriving DecidableEq, Repr

namespace Token

def agrees (a b : Token) : Bool := a.kind.agrees b.kind && a.lexeme == b.lexeme && a.line == b.line

def text (t : Token) : String :=
  let literal := match t.kind with
    | .string contents => contents
    | .number value => Number.text .token value
    | _ => "null"
  t.kind.name ++ " " ++ t.lexeme ++ " " ++ literal

end Token
end Treewalk
