import Treewalk.Syntax.Parse

/-! The grammar of the language, as relations between token lists and the trees they stand for. A relation
holds of exactly the tokens of its phrase and knows nothing of what follows them; repetitions are written as
tails that take the tree so far, so that operators group to the left. -/
namespace Treewalk.Grammar

def identOf (t : Token) : Ident := ⟨t.lexeme,t.line⟩

inductive Level where
  | or
  | and
  | equality
  | comparison
  | term
  | factor
  deriving DecidableEq, Repr

namespace Level

def operators : Level → List (Kind × (Expr → Expr → Nat → Expr))
  | .or => [(.keyword .kwOr,fun l r line => .logical l .or r line)]
  | .and => [(.keyword .kwAnd,fun l r line => .logical l .and r line)]
  | .equality => [(.symbol .bangEqual,fun l r line => .binary l .notEqual r line),
      (.symbol .equalEqual,fun l r line => .binary l .equal r line)]
  | .comparison => [(.symbol .greater,fun l r line => .binary l .greater r line),
      (.symbol .greaterEqual,fun l r line => .binary l .greaterEqual r line),
      (.symbol .less,fun l r line => .binary l .less r line),
      (.symbol .lessEqual,fun l r line => .binary l .lessEqual r line)]
  | .term => [(.symbol .minus,fun l r line => .binary l .subtract r line),
      (.symbol .plus,fun l r line => .binary l .add r line)]
  | .factor => [(.symbol .slash,fun l r line => .binary l .divide r line),
      (.symbol .star,fun l r line => .binary l .multiply r line)]

def tighter : Level → Option Level
  | .or => some .and
  | .and => some .equality
  | .equality => some .comparison
  | .comparison => some .term
  | .term => some .factor
  | .factor => none

end Level

def prefixOperators : List (Kind × UnaryOp) := [(.symbol .bang,.not),(.symbol .minus,.negate)]

/- What a `for` loop stands for: a block that holds the initializer and a `while`, whose body runs the body of
the loop followed by the increment. -/
def forTree (line : Nat) (condition : Option Expr) (body : Stmt) : Option Stmt → Option Expr → Stmt
  | none,none => .whileLoop (condition.getD (.literal (.bool true) line)) body
  | none,some step => .whileLoop (condition.getD (.literal (.bool true) line)) (.block [body,.expression step])
  | some first,none => .block [first,.whileLoop (condition.getD (.literal (.bool true) line)) body]
  | some first,some step => .block [first,
      .whileLoop (condition.getD (.literal (.bool true) line)) (.block [body,.expression step])]

inductive Separated {α : Type} (Item : List Token → α → Prop) : List Token → List α → Prop where
  | last {ts x} (item : Item ts x) : Separated Item ts [x]
  | more {ts comma rest x xs} (item : Item ts x) (divider : comma.kind = .symbol .comma)
      (tail : Separated Item rest xs) : Separated Item (ts ++ comma :: rest) (x :: xs)

inductive Name : List Token → Ident → Prop where
  | mk {t} (kind : t.kind = .identifier) : Name [t] (identOf t)

inductive Parameters : List Token → List Ident → Prop where
  | none : Parameters [] []
  | some {ts names} (list : Separated Name ts names) (few : names.length ≤ 255) : Parameters ts names

mutual

inductive Expression : List Token → Expr → Prop where
  | assign {name equal ts value} (target : name.kind = .identifier) (sign : equal.kind = .symbol .equal)
      (source : Expression ts value) :
      Expression (name :: equal :: ts) (.assign (identOf name) value none)
  | set {object dot name equal ts e value} (receiver : Call object e) (point : dot.kind = .symbol .dot)
      (target : name.kind = .identifier) (sign : equal.kind = .symbol .equal)
      (source : Expression ts value) :
      Expression (object ++ dot :: name :: equal :: ts) (.set e (identOf name) value)
  | ternary {ts e} (inner : Ternary ts e) : Expression ts e

inductive Ternary : List Token → Expr → Prop where
  | plain {ts e} (inner : Chain .or ts e) : Ternary ts e
  | choice {condition question thens colon elses c t e} (test : Chain .or condition c)
      (mark : question.kind = .symbol .question) (first : Expression thens t)
      (divider : colon.kind = .symbol .colon) (second : Ternary elses e) :
      Ternary (condition ++ question :: (thens ++ colon :: elses)) (.ternary c t e question.line)

inductive Chain : Level → List Token → Expr → Prop where
  | mk {level first more l e} (head : Operand level first l) (tail : ChainTail level l more e) :
      Chain level (first ++ more) e

inductive ChainTail : Level → Expr → List Token → Expr → Prop where
  | stop {level e} : ChainTail level e [] e
  | step {level l op build right r more e} (sign : (op.kind,build) ∈ level.operators)
      (operand : Operand level right r) (tail : ChainTail level (build l r op.line) more e) :
      ChainTail level l (op :: (right ++ more)) e

inductive Operand : Level → List Token → Expr → Prop where
  | chain {level next ts e} (tighter : level.tighter = some next) (inner : Chain next ts e) :
      Operand level ts e
  | unary {level ts e} (tightest : level.tighter = none) (inner : Unary ts e) : Operand level ts e

inductive Unary : List Token → Expr → Prop where
  | operation {sign op ts e} (operator : (sign.kind,op) ∈ prefixOperators) (inner : Unary ts e) :
      Unary (sign :: ts) (.unary op e sign.line)
  | call {ts e} (inner : Call ts e) : Unary ts e

inductive Call : List Token → Expr → Prop where
  | mk {first more l e} (head : Primary first l) (tail : CallTail l more e) : Call (first ++ more) e

inductive CallTail : Expr → List Token → Expr → Prop where
  | stop {e} : CallTail e [] e
  | call {l opening args es closing more e} (before : opening.kind = .symbol .leftParen)
      (list : Arguments args es) (after : closing.kind = .symbol .rightParen)
      (tail : CallTail (.call l es closing.line) more e) :
      CallTail l (opening :: (args ++ closing :: more)) e
  | get {l dot name more e} (point : dot.kind = .symbol .dot) (property : name.kind = .identifier)
      (tail : CallTail (.get l (identOf name)) more e) : CallTail l (dot :: name :: more) e

inductive Arguments : List Token → List Expr → Prop where
  | none : Arguments [] []
  | some {ts es} (list : Expressions ts es) (few : es.length ≤ 255) : Arguments ts es

inductive Expressions : List Token → List Expr → Prop where
  | last {ts e} (item : Expression ts e) : Expressions ts [e]
  | more {ts comma rest e es} (item : Expression ts e) (divider : comma.kind = .symbol .comma)
      (tail : Expressions rest es) : Expressions (ts ++ comma :: rest) (e :: es)

inductive Primary : List Token → Expr → Prop where
  | number {t value} (kind : t.kind = .number value) : Primary [t] (.literal (.number value) t.line)
  | string {t contents} (kind : t.kind = .string contents) : Primary [t] (.literal (.string contents) t.line)
  | true {t} (kind : t.kind = .keyword .kwTrue) : Primary [t] (.literal (.bool true) t.line)
  | false {t} (kind : t.kind = .keyword .kwFalse) : Primary [t] (.literal (.bool false) t.line)
  | nil {t} (kind : t.kind = .keyword .kwNil) : Primary [t] (.literal .nil t.line)
  | this {t} (kind : t.kind = .keyword .kwThis) : Primary [t] (.this (identOf t) none)
  | name {t} (kind : t.kind = .identifier) : Primary [t] (.var (identOf t) none)
  | grouping {opening ts e closing} (before : opening.kind = .symbol .leftParen) (inner : Expression ts e)
      (after : closing.kind = .symbol .rightParen) : Primary (opening :: (ts ++ [closing])) (.grouping e)
  | lambda {keyword opening ts names closing block body} (start : keyword.kind = .keyword .kwFun)
      (before : opening.kind = .symbol .leftParen) (list : Parameters ts names)
      (after : closing.kind = .symbol .rightParen) (inner : Block block body) :
      Primary (keyword :: opening :: (ts ++ closing :: block)) (.lambda ⟨none,names,body,keyword.line⟩)

inductive Block : List Token → List Stmt → Prop where
  | mk {opening ts body closing} (before : opening.kind = .symbol .leftBrace) (inner : Declarations ts body)
      (after : closing.kind = .symbol .rightBrace) : Block (opening :: (ts ++ [closing])) body

inductive Declarations : List Token → List Stmt → Prop where
  | none : Declarations [] []
  | more {ts s rest ss} (head : Declaration ts s) (tail : Declarations rest ss) :
      Declarations (ts ++ rest) (s :: ss)

inductive Declaration : List Token → Stmt → Prop where
  | classDecl {keyword name opening ts closing methods classMethods} (start : keyword.kind = .keyword .kwClass)
      (title : name.kind = .identifier) (before : opening.kind = .symbol .leftBrace)
      (inner : Members ts methods classMethods) (after : closing.kind = .symbol .rightBrace) :
      Declaration (keyword :: name :: opening :: (ts ++ [closing]))
        (.classDecl ⟨identOf name,none,methods,classMethods⟩)
  | subclass {keyword name less parent opening ts closing methods classMethods}
      (start : keyword.kind = .keyword .kwClass) (title : name.kind = .identifier)
      (sign : less.kind = .symbol .less) (superclass : parent.kind = .identifier)
      (before : opening.kind = .symbol .leftBrace) (inner : Members ts methods classMethods)
      (after : closing.kind = .symbol .rightBrace) :
      Declaration (keyword :: name :: less :: parent :: opening :: (ts ++ [closing]))
        (.classDecl ⟨identOf name,some (.var (identOf parent) none),methods,classMethods⟩)
  | funDecl {keyword ts decl} (start : keyword.kind = .keyword .kwFun) (inner : Function ts decl) :
      Declaration (keyword :: ts) (.funDecl decl)
  | varDecl {ts s} (inner : VarDecl ts s) : Declaration ts s
  | statement {short ts s} (inner : Statement short ts s) : Declaration ts s

inductive Members : List Token → List FunctionDecl → List FunctionDecl → Prop where
  | none : Members [] [] []
  | method {ts decl rest methods classMethods} (head : Function ts decl)
      (tail : Members rest methods classMethods) : Members (ts ++ rest) (decl :: methods) classMethods
  | classMethod {keyword ts decl rest methods classMethods} (start : keyword.kind = .keyword .kwClass)
      (head : Function ts decl) (tail : Members rest methods classMethods) :
      Members (keyword :: (ts ++ rest)) methods (decl :: classMethods)

inductive Function : List Token → FunctionDecl → Prop where
  | mk {name opening ts names closing block body} (title : name.kind = .identifier)
      (before : opening.kind = .symbol .leftParen) (list : Parameters ts names)
      (after : closing.kind = .symbol .rightParen) (inner : Block block body) :
      Function (name :: opening :: (ts ++ closing :: block)) ⟨some (identOf name),names,body,name.line⟩

inductive VarDecl : List Token → Stmt → Prop where
  | bare {keyword name semicolon} (start : keyword.kind = .keyword .kwVar) (title : name.kind = .identifier)
      (after : semicolon.kind = .symbol .semicolon) :
      VarDecl [keyword,name,semicolon] (.varDecl (identOf name) none)
  | initialized {keyword name equal ts e semicolon} (start : keyword.kind = .keyword .kwVar)
      (title : name.kind = .identifier) (sign : equal.kind = .symbol .equal) (inner : Expression ts e)
      (after : semicolon.kind = .symbol .semicolon) :
      VarDecl (keyword :: name :: equal :: (ts ++ [semicolon])) (.varDecl (identOf name) (some e))

inductive ExpressionStatement : List Token → Stmt → Prop where
  | mk {ts e semicolon} (inner : Expression ts e) (after : semicolon.kind = .symbol .semicolon) :
      ExpressionStatement (ts ++ [semicolon]) (.expression e)

inductive OptionalExpression : List Token → Option Expr → Prop where
  | none : OptionalExpression [] none
  | some {ts e} (inner : Expression ts e) : OptionalExpression ts (some e)

inductive ForInitializer : List Token → Option Stmt → Prop where
  | none {semicolon} (kind : semicolon.kind = .symbol .semicolon) : ForInitializer [semicolon] none
  | varDecl {ts s} (inner : VarDecl ts s) : ForInitializer ts (some s)
  | expression {ts s} (inner : ExpressionStatement ts s) : ForInitializer ts (some s)

/- The flag tells that the statement ends in an `if` without `else`. Such a statement is not the first branch
of an `if` with `else`: the `else` belongs to the nearest `if`. -/
inductive Statement : Bool → List Token → Stmt → Prop where
  | expression {ts s} (inner : ExpressionStatement ts s) : Statement false ts s
  | print {keyword ts e semicolon} (start : keyword.kind = .keyword .kwPrint) (inner : Expression ts e)
      (after : semicolon.kind = .symbol .semicolon) :
      Statement false (keyword :: (ts ++ [semicolon])) (.print e)
  | returned {keyword ts value semicolon} (start : keyword.kind = .keyword .kwReturn)
      (inner : OptionalExpression ts value) (after : semicolon.kind = .symbol .semicolon) :
      Statement false (keyword :: (ts ++ [semicolon])) (.returnStmt (identOf keyword) value)
  | block {ts body} (inner : Block ts body) : Statement false ts (.block body)
  | whileLoop {short keyword opening condition closing ts c s} (start : keyword.kind = .keyword .kwWhile)
      (before : opening.kind = .symbol .leftParen) (test : Expression condition c)
      (after : closing.kind = .symbol .rightParen) (body : Statement short ts s) :
      Statement short (keyword :: opening :: (condition ++ closing :: ts)) (.whileLoop c s)
  | ifOnly {short keyword opening condition closing ts c s} (start : keyword.kind = .keyword .kwIf)
      (before : opening.kind = .symbol .leftParen) (test : Expression condition c)
      (after : closing.kind = .symbol .rightParen) (first : Statement short ts s) :
      Statement true (keyword :: opening :: (condition ++ closing :: ts)) (.ifElse c s none)
  | ifElse {short keyword opening condition closing ts other elses c s t}
      (start : keyword.kind = .keyword .kwIf) (before : opening.kind = .symbol .leftParen)
      (test : Expression condition c) (after : closing.kind = .symbol .rightParen)
      (first : Statement false ts s) (divider : other.kind = .keyword .kwElse)
      (second : Statement short elses t) :
      Statement short (keyword :: opening :: (condition ++ closing :: (ts ++ other :: elses)))
        (.ifElse c s (some t))
  | forLoop {short keyword opening init condition semicolon step closing ts i c n s}
      (start : keyword.kind = .keyword .kwFor) (before : opening.kind = .symbol .leftParen)
      (first : ForInitializer init i) (test : OptionalExpression condition c)
      (divider : semicolon.kind = .symbol .semicolon) (increment : OptionalExpression step n)
      (after : closing.kind = .symbol .rightParen) (body : Statement short ts s) :
      Statement short
        (keyword :: opening :: (init ++ (condition ++ semicolon :: (step ++ closing :: ts))))
        (forTree keyword.line c s i n)

end

inductive Program : List Token → List Stmt → Prop where
  | mk {ts ast last} (inner : Declarations ts ast) (after : last.kind = .eof) : Program (ts ++ [last]) ast

inductive WholeExpression : List Token → Expr → Prop where
  | mk {ts e last} (inner : Expression ts e) (after : last.kind = .eof) : WholeExpression (ts ++ [last]) e

end Treewalk.Grammar
