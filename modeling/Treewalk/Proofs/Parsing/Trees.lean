import Treewalk.Proofs.Parsing

/-! Trees made of tokens. Whatever a parser makes, also after errors that it recovered from, is made of the tokens that
it was given: names are those of identifiers, no list is too long, slots are empty, only lists hold declarations. -/
namespace Treewalk

def Ident.MadeOf (source : List Token) (kind : Kind) (name : Ident) : Prop :=
  ∃ t ∈ source, t.kind = kind ∧ name = ⟨t.lexeme, t.line⟩

def Literal.MadeOf (source : List Token) : Literal → Prop
  | .number value => ∃ t ∈ source, t.kind = .number value
  | .string contents => ∃ t ∈ source, t.kind = .string contents
  | .bool _ => True
  | .nil => True

def Stmt.isDeclaration : Stmt → Bool
  | .varDecl _ _ | .funDecl _ | .classDecl _ => true
  | _ => false

mutual

def Expr.MadeOf (source : List Token) : Expr → Prop
  | .literal value _ => value.MadeOf source
  | .unary _ right _ => right.MadeOf source
  | .binary left _ right _ => left.MadeOf source ∧ right.MadeOf source
  | .logical left _ right _ => left.MadeOf source ∧ right.MadeOf source
  | .ternary condition thenBranch elseBranch _ =>
    condition.MadeOf source ∧ thenBranch.MadeOf source ∧ elseBranch.MadeOf source
  | .grouping inner => inner.MadeOf source
  | .var name depth => name.MadeOf source .identifier ∧ depth = none
  | .assign name value depth => name.MadeOf source .identifier ∧ value.MadeOf source ∧ depth = none
  | .call callee arguments _ =>
    callee.MadeOf source ∧ arguments.length ≤ maxArguments ∧ Expr.MadeOfAll source arguments
  | .get object name => object.MadeOf source ∧ name.MadeOf source .identifier
  | .set object name value => object.MadeOf source ∧ name.MadeOf source .identifier ∧ value.MadeOf source
  | .this keyword depth => keyword.MadeOf source (.keyword .kwThis) ∧ depth = none
  | .lambda decl => decl.name = none ∧ decl.MadeOf source

def Expr.MadeOfAll (source : List Token) : List Expr → Prop
  | [] => True
  | e :: rest => e.MadeOf source ∧ Expr.MadeOfAll source rest

def Expr.MadeOfOption (source : List Token) : Option Expr → Prop
  | none => True
  | some e => e.MadeOf source

def Stmt.MadeOf (source : List Token) : Stmt → Prop
  | .expression value => value.MadeOf source
  | .print value => value.MadeOf source
  | .varDecl name initializer => name.MadeOf source .identifier ∧ Expr.MadeOfOption source initializer
  | .block body => Stmt.MadeOfAll source body
  | .ifElse condition thenBranch elseBranch =>
    condition.MadeOf source ∧ (thenBranch.MadeOf source ∧ thenBranch.isDeclaration = false) ∧
      Stmt.MadeOfOption source elseBranch
  | .whileLoop condition body => condition.MadeOf source ∧ body.MadeOf source ∧ body.isDeclaration = false
  | .funDecl decl => decl.name ≠ none ∧ decl.MadeOf source
  | .classDecl decl => decl.MadeOf source
  | .returnStmt _ value => Expr.MadeOfOption source value

def Stmt.MadeOfAll (source : List Token) : List Stmt → Prop
  | [] => True
  | s :: rest => s.MadeOf source ∧ Stmt.MadeOfAll source rest

def Stmt.MadeOfOption (source : List Token) : Option Stmt → Prop
  | none => True
  | some s => s.MadeOf source ∧ s.isDeclaration = false

def FunctionDecl.MadeOf (source : List Token) : FunctionDecl → Prop
  | ⟨name, params, body, _⟩ =>
    (∀ n, name = some n → n.MadeOf source .identifier) ∧ params.length ≤ maxArguments ∧
      (∀ n ∈ params, n.MadeOf source .identifier) ∧ Stmt.MadeOfAll source body

def FunctionDecl.MadeOfAll (source : List Token) : List FunctionDecl → Prop
  | [] => True
  | decl :: rest => (decl.name ≠ none ∧ decl.MadeOf source) ∧ FunctionDecl.MadeOfAll source rest

def ClassDecl.MadeOf (source : List Token) : ClassDecl → Prop
  | ⟨name, superclass, methods, classMethods⟩ =>
    name.MadeOf source .identifier ∧
      (∀ e, superclass = some e → ∃ parent : Ident, e = .var parent none ∧ parent.MadeOf source .identifier) ∧
      FunctionDecl.MadeOfAll source methods ∧ FunctionDecl.MadeOfAll source classMethods

end

section Lists
variable {source : List Token}

theorem Expr.madeOfAll {es : List Expr} : Expr.MadeOfAll source es ↔ ∀ e ∈ es, e.MadeOf source := by
  induction es with
  | nil => simp [Expr.MadeOfAll]
  | cons e rest ih => simp [Expr.MadeOfAll, ih]

theorem Stmt.madeOfAll {ss : List Stmt} : Stmt.MadeOfAll source ss ↔ ∀ s ∈ ss, s.MadeOf source := by
  induction ss with
  | nil => simp [Stmt.MadeOfAll]
  | cons s rest ih => simp [Stmt.MadeOfAll, ih]

theorem FunctionDecl.madeOfAll {decls : List FunctionDecl} :
    FunctionDecl.MadeOfAll source decls ↔ ∀ decl ∈ decls, decl.name ≠ none ∧ decl.MadeOf source := by
  induction decls with
  | nil => simp [FunctionDecl.MadeOfAll]
  | cons decl rest ih => simp [FunctionDecl.MadeOfAll, ih]

end Lists

namespace Parser
variable {source : List Token}

/- A parser that has only tokens of the source before it leaves only such tokens, and makes what is demanded. -/
structure Makes (source : List Token) (p : Parser α) (post : α → Prop) : Prop where
  ok : ∀ {c a c'}, c.rest ⊆ source → p c = .ok a c' → c'.rest ⊆ source ∧ post a
  error : ∀ {c e c'}, c.rest ⊆ source → p c = .error e c' → c'.rest ⊆ source

theorem Makes.mono {p : Parser α} {post post' : α → Prop} (makes : Makes source p post)
    (weaker : ∀ a, post a → post' a) : Makes source p post' where
  ok inside ran := ⟨(makes.ok inside ran).1, weaker _ (makes.ok inside ran).2⟩
  error := makes.error

theorem Makes.bind {p : Parser α} {f : α → Parser β} {post : α → Prop} {goal : β → Prop} (first : Makes source p post)
    (second : ∀ a, post a → Makes source (f a) goal) : Makes source (p >>= f) goal where
  ok {c b c''} inside ran := by
    cases h : p c with
    | error e c' => cases (bindError h).symm.trans ran
    | ok a c' =>
      obtain ⟨left, holds⟩ := first.ok inside h
      exact (second a holds).ok left ((bindOk h).symm.trans ran)
  error {c e c''} inside ran := by
    cases h : p c with
    | error e' c' =>
      cases (bindError h).symm.trans ran
      exact first.error inside h
    | ok a c' =>
      obtain ⟨left, holds⟩ := first.ok inside h
      exact (second a holds).error left ((bindOk h).symm.trans ran)

theorem makesPure {post : α → Prop} {a : α} (holds : post a) : Makes source (pure a) post where
  ok inside ran := by
    cases ran
    exact ⟨inside, holds⟩
  error _ ran := by cases ran

theorem makesFail {line : Nat} {fault : SyntaxFault} {post : α → Prop} : Makes source (failAt line fault) post where
  ok _ ran := by cases ran
  error inside ran := by
    cases ran
    exact inside

theorem makesLook {look : Cursor → α} {post : α → Prop} (holds : ∀ c : Cursor, c.rest ⊆ source → post (look c)) :
    Makes source (fun c => .ok (look c) c) post where
  ok inside ran := by
    cases ran
    exact ⟨inside, holds _ inside⟩
  error _ ran := by cases ran

theorem makesPeek : Makes source peek fun t => t.kind ≠ .eof → t ∈ source := by
  refine makesLook fun c inside kind => ?_
  obtain ⟨rest, here⟩ := peekNotEnd kind
  exact inside (here ▸ List.mem_cons_self)

theorem makesPeekSecond : Makes source peekSecond fun _ => True := makesLook fun _ _ => trivial

theorem makesCheck {k : Kind} : Makes source (check k) fun _ => True := makesLook fun _ _ => trivial

theorem makesAtEnd : Makes source atEnd fun _ => True := makesLook fun _ _ => trivial

theorem makesAtBlockEnd : Makes source atBlockEnd fun _ => True :=
  makesCheck.bind fun _ _ => makesAtEnd.bind fun _ _ => makesPure trivial

theorem makesSkip : Makes source skip fun _ => True where
  ok inside ran := by
    cases ran
    exact ⟨fun t member => inside (List.mem_of_mem_tail member), trivial⟩
  error _ ran := by cases ran

theorem makesUnexpected {what : Expected} {post : α → Prop} : Makes source (unexpected what) post :=
  makesPeek.bind fun _ _ => makesFail

theorem makesAccept {k : Kind} : Makes source (accept k) fun _ => True := by
  refine makesPeek.bind fun t _ => ?_
  split
  · exact makesSkip.bind fun _ _ => makesPure trivial
  · exact makesPure trivial

theorem makesExpect {k : Kind} {what : Expected} (mark : k.isMark) :
    Makes source (expect k what) fun t => t ∈ source ∧ t.kind = k := by
  refine makesPeek.bind fun t here => ?_
  split
  · rename_i agrees
    have kind := (Kind.agreesMark mark).mp agrees
    exact makesSkip.bind fun _ _ => makesPure ⟨here (kind ▸ Kind.markNotEnd mark), kind⟩
  · exact makesUnexpected

theorem makesIdent {what : Expected} : Makes source (ident what) (Ident.MadeOf source .identifier) :=
  (makesExpect rfl).bind fun t found => makesPure ⟨t, found.1, found.2, rfl⟩

theorem makesOperator {table : Kind → Option α} : Makes source (operator table) fun _ => True := by
  refine makesPeek.bind fun t _ => ?_
  split
  · exact makesSkip.bind fun _ _ => makesPure trivial
  · exact makesPure trivial

theorem makesGrow {step : α → Parser (Option α)} {post : α → Prop}
    (steps : ∀ a, post a → Makes source (step a) fun r => ∀ b, r = some b → post b) (bound : List Token) {a : α}
    (start : post a) : Makes source (grow step bound a) post := by
  induction bound generalizing a with
  | nil => exact makesPure start
  | cons _ bound ih =>
    refine (steps a start).bind fun r grown => ?_
    cases r with
    | none => exact makesPure start
    | some b => exact ih (grown b rfl)

theorem makesGrowing {step : α → Parser (Option α)} {post : α → Prop}
    (steps : ∀ a, post a → Makes source (step a) fun r => ∀ b, r = some b → post b) {a : α} (start : post a) :
    Makes source (growing step a) post where
  ok {c _ _} inside ran := (makesGrow steps c.rest start).ok inside ran
  error {c _ _} inside ran := (makesGrow steps c.rest start).error inside ran

theorem makesLeftAssoc {table : Kind → Option α} {build : Expr → α → Expr → Nat → Expr} {operand : Parser Expr}
    (builds : ∀ {left op right line}, left.MadeOf source → right.MadeOf source →
      (build left op right line).MadeOf source)
    (operands : Makes source operand (Expr.MadeOf source)) :
    Makes source (leftAssoc table build operand) (Expr.MadeOf source) := by
  refine operands.bind fun first made => makesGrowing (fun left made => ?_) made
  refine makesOperator.bind fun r _ => ?_
  cases r with
  | none => exact makesPure fun _ same => by cases same
  | some found =>
    refine operands.bind fun right made' => makesPure fun e same => ?_
    cases same
    exact builds made made'

theorem makesCollect {stop : Parser Bool} {item : Parser (Option α)} {post : α → Prop}
    (stops : Makes source stop fun _ => True) (items : Makes source item fun r => ∀ a, r = some a → post a)
    (bound : List Token) : Makes source (collect stop item bound) fun xs => ∀ x ∈ xs, post x := by
  induction bound with
  | nil => exact makesPure fun x member => absurd member List.not_mem_nil
  | cons _ bound ih =>
    refine stops.bind fun stopped _ => ?_
    cases stopped with
    | true => exact makesPure fun x member => absurd member List.not_mem_nil
    | false =>
      refine items.bind fun r made => ih.bind fun xs all => makesPure fun x member => ?_
      rcases List.mem_append.mp member with here | there
      · exact made x (Option.mem_toList.mp here)
      · exact all x there

theorem makesCollecting {stop : Parser Bool} {item : Parser (Option α)} {post : α → Prop}
    (stops : Makes source stop fun _ => True) (items : Makes source item fun r => ∀ a, r = some a → post a) :
    Makes source (collecting stop item) fun xs => ∀ x ∈ xs, post x where
  ok {c _ _} inside ran := (makesCollect stops items c.rest).ok inside ran
  error {c _ _} inside ran := (makesCollect stops items c.rest).error inside ran

theorem makesCommaList {item : Parser α} {full : SyntaxFault} {post : α → Prop} (items : Makes source item post)
    (room : Nat) : Makes source (commaList item full room) fun xs => xs.length ≤ room ∧ ∀ x ∈ xs, post x := by
  induction room with
  | zero => exact makesPeek.bind fun _ _ => makesFail
  | succ room ih =>
    refine items.bind fun x made => makesAccept.bind fun comma _ => ?_
    cases comma with
    | none => exact makesPure ⟨by simp, by simpa using made⟩
    | some comma => exact ih.bind fun xs all => makesPure ⟨by simpa using all.1, by simpa using ⟨made, all.2⟩⟩

theorem makesBracketed {item : Parser α} {full : SyntaxFault} {close : Expected} {post : α → Prop}
    (items : Makes source item post) : Makes source (bracketed item full close) fun r =>
      r.1.length ≤ maxArguments ∧ ∀ x ∈ r.1, post x := by
  refine makesCheck.bind fun closed _ => ?_
  cases closed with
  | true => exact (makesExpect rfl).bind fun _ _ => makesPure ⟨Nat.zero_le _, by simp⟩
  | false =>
    refine (makesCommaList items maxArguments).bind fun xs all => ?_
    exact (makesExpect rfl).bind fun _ _ => makesPure all

theorem makesParameters : Makes source parameters fun names =>
    names.length ≤ maxArguments ∧ ∀ n ∈ names, n.MadeOf source .identifier :=
  (makesBracketed makesIdent).bind fun _ all => makesPure all

end Parser

/- What is read of a `for` statement, before the loop is written in terms of `while`. -/
structure ForClauses where
  initializer : Option Stmt
  condition : Option Expr
  increment : Option Expr
  body : Stmt

structure ForClauses.MadeOf (source : List Token) (clauses : ForClauses) : Prop where
  initializer : ∀ s, clauses.initializer = some s → s.MadeOf source
  condition : Expr.MadeOfOption source clauses.condition
  increment : Expr.MadeOfOption source clauses.increment
  body : clauses.body.MadeOf source ∧ clauses.body.isDeclaration = false

def ForClauses.loop (line : Nat) (clauses : ForClauses) : Stmt :=
  Phrases.forLoop line clauses.initializer clauses.condition clauses.increment clauses.body

theorem ForClauses.loopMade {source : List Token} {clauses : ForClauses} (made : clauses.MadeOf source) (line : Nat) :
    (clauses.loop line).MadeOf source ∧ (clauses.loop line).isDeclaration = false := by
  obtain ⟨initializer, condition, increment, body⟩ := clauses
  obtain ⟨first, test, step, made⟩ := made
  have guard : (condition.getD (.literal (.bool true) line)).MadeOf source := by
    cases condition with
    | none => trivial
    | some e => exact test
  cases initializer with
  | none =>
    cases increment with
    | none => exact ⟨⟨guard, made⟩, rfl⟩
    | some e => exact ⟨⟨guard, ⟨made.1, step, trivial⟩, rfl⟩, rfl⟩
  | some s =>
    cases increment with
    | none => exact ⟨⟨first s rfl, ⟨guard, made⟩, trivial⟩, rfl⟩
    | some e => exact ⟨⟨first s rfl, ⟨guard, ⟨made.1, step, trivial⟩, rfl⟩, trivial⟩, rfl⟩

namespace Phrases
open Treewalk.Parser

def forClauses (p : Phrases) : Parser ForClauses := do
  let _ ← expect (.symbol .leftParen) .forClauses
  let initializer ← p.forInitializer
  let condition ← p.optionalExpression (.symbol .semicolon)
  let _ ← expect (.symbol .semicolon) .loopConditionEnd
  let increment ← p.optionalExpression (.symbol .rightParen)
  let _ ← expect (.symbol .rightParen) .forClausesEnd
  let body ← p.statement
  return ⟨initializer, condition, increment, body⟩

theorem forStatementReads (p : Phrases) (line : Nat) :
    p.forStatement line = (do return (← p.forClauses).loop line) := by
  simp only [forStatement, forClauses, bind_assoc, pure_bind, ForClauses.loop]

/- Inner phrases that make trees of the tokens of a source. What stands for a statement is no declaration. -/
structure Builds (source : List Token) (p : Phrases) : Prop where
  expression : Makes source p.expression (Expr.MadeOf source)
  ternary : Makes source p.ternary (Expr.MadeOf source)
  unary : Makes source p.unary (Expr.MadeOf source)
  statement : Makes source p.statement fun s => s.MadeOf source ∧ s.isDeclaration = false
  declaration : Makes source p.declaration fun r => ∀ s, r = some s → s.MadeOf source

section Rules
variable {source : List Token} {p : Phrases} (builds : p.Builds source)
include builds

theorem makesBlock : Makes source p.block (Stmt.MadeOfAll source) :=
  (makesCollecting makesAtBlockEnd builds.declaration).bind fun _ all =>
    (makesExpect rfl).bind fun _ _ => makesPure (Stmt.madeOfAll.mpr all)

theorem makesLambda {line : Nat} : Makes source (p.lambda line) (Expr.MadeOf source) := by
  refine (makesExpect rfl).bind fun _ _ => makesParameters.bind fun params named => ?_
  refine (makesExpect rfl).bind fun _ _ => (makesBlock builds).bind fun body made => makesPure ⟨rfl, ?_⟩
  exact ⟨fun _ none => (by cases none), named.1, named.2, made⟩

theorem makesPrimary : Makes source p.primary (Expr.MadeOf source) := by
  refine makesPeek.bind fun t here => ?_
  split
  · exact makesSkip.bind fun _ _ => makesPure trivial
  · exact makesSkip.bind fun _ _ => makesPure trivial
  · exact makesSkip.bind fun _ _ => makesPure trivial
  · rename_i value kind
    exact makesSkip.bind fun _ _ => makesPure ⟨t, here (by simp [kind]), kind⟩
  · rename_i contents kind
    exact makesSkip.bind fun _ _ => makesPure ⟨t, here (by simp [kind]), kind⟩
  · rename_i kind
    exact makesSkip.bind fun _ _ => makesPure ⟨⟨t, here (by simp [kind]), kind, rfl⟩, rfl⟩
  · rename_i kind
    exact makesSkip.bind fun _ _ => makesPure ⟨⟨t, here (by simp [kind]), kind, rfl⟩, rfl⟩
  · exact makesSkip.bind fun _ _ => makesLambda builds
  · refine makesSkip.bind fun _ _ => builds.expression.bind fun inner made => ?_
    exact (makesExpect rfl).bind fun _ _ => makesPure made
  · exact makesUnexpected

theorem makesSuffix {e : Expr} (made : e.MadeOf source) :
    Makes source (p.suffix e) fun r => ∀ larger, r = some larger → larger.MadeOf source := by
  refine makesPeek.bind fun t _ => ?_
  split
  · refine makesSkip.bind fun _ _ => (makesBracketed builds.expression).bind fun r all => makesPure fun _ same => ?_
    cases same
    exact ⟨made, all.1, Expr.madeOfAll.mpr all.2⟩
  · refine makesSkip.bind fun _ _ => makesIdent.bind fun name named => makesPure fun _ same => ?_
    cases same
    exact ⟨made, named⟩
  · exact makesPure fun _ same => by cases same

theorem makesCallRule : Makes source p.callRule (Expr.MadeOf source) :=
  (makesPrimary builds).bind fun _ made => makesGrowing (fun _ made => makesSuffix builds made) made

theorem makesUnaryRule : Makes source p.unaryRule (Expr.MadeOf source) := by
  refine makesOperator.bind fun r _ => ?_
  cases r with
  | none => exact makesCallRule builds
  | some found => exact builds.unary.bind fun _ made => makesPure made

theorem makesOrRule : Makes source p.orRule (Expr.MadeOf source) := by
  have unary := makesUnaryRule builds
  have factor : Makes source p.factorRule _ := makesLeftAssoc (fun left right => ⟨left, right⟩) unary
  have term : Makes source p.termRule _ := makesLeftAssoc (fun left right => ⟨left, right⟩) factor
  have comparison : Makes source p.comparisonRule _ := makesLeftAssoc (fun left right => ⟨left, right⟩) term
  have equality : Makes source p.equalityRule _ := makesLeftAssoc (fun left right => ⟨left, right⟩) comparison
  have both : Makes source p.andRule _ := makesLeftAssoc (fun left right => ⟨left, right⟩) equality
  exact makesLeftAssoc (fun left right => ⟨left, right⟩) both

theorem makesTernaryRule : Makes source p.ternaryRule (Expr.MadeOf source) := by
  refine (makesOrRule builds).bind fun condition test => makesAccept.bind fun question _ => ?_
  cases question with
  | none => exact makesPure test
  | some question =>
    refine builds.expression.bind fun _ first => (makesExpect rfl).bind fun _ _ => ?_
    exact builds.ternary.bind fun _ second => makesPure ⟨test, first, second⟩

theorem makesExpressionRule : Makes source p.expressionRule (Expr.MadeOf source) := by
  refine (makesTernaryRule builds).bind fun target made => makesAccept.bind fun equal _ => ?_
  cases equal with
  | none => exact makesPure made
  | some equal =>
    refine builds.expression.bind fun value source => ?_
    split
    · exact makesPure ⟨made.1, source, rfl⟩
    · exact makesPure ⟨made.1, made.2, source⟩
    · exact makesFail

theorem makesExpressionStatement :
    Makes source p.expressionStatement fun s => s.MadeOf source ∧ s.isDeclaration = false :=
  (makesExpressionRule builds).bind fun _ made => (makesExpect rfl).bind fun _ _ => makesPure ⟨made, rfl⟩

theorem makesVarDeclaration : Makes source p.varDeclaration (Stmt.MadeOf source) := by
  refine makesIdent.bind fun name named => makesAccept.bind fun equal _ => ?_
  cases equal with
  | none => exact (makesExpect rfl).bind fun _ _ => makesPure ⟨named, trivial⟩
  | some equal =>
    have initializer : Makes source (some <$> p.expression) (Expr.MadeOfOption source) := by
      rw [map_eq_pure_bind]
      exact builds.expression.bind fun _ made => makesPure made
    exact initializer.bind fun _ made => (makesExpect rfl).bind fun _ _ => makesPure ⟨named, made⟩

theorem makesOptionalExpression {last : Kind} :
    Makes source (p.optionalExpression last) (Expr.MadeOfOption source) := by
  refine makesCheck.bind fun absent _ => ?_
  cases absent with
  | true => exact makesPure trivial
  | false => exact builds.expression.bind fun _ made => makesPure made

theorem makesForInitializer :
    Makes source p.forInitializer fun r => ∀ s, r = some s → s.MadeOf source := by
  refine makesPeek.bind fun t _ => ?_
  split
  · exact makesSkip.bind fun _ _ => makesPure fun _ same => by cases same
  · exact makesSkip.bind fun _ _ => (makesVarDeclaration builds).bind fun _ made => makesPure fun _ same => by
      cases same
      exact made
  · exact (makesExpressionStatement builds).bind fun _ made => makesPure fun _ same => by
      cases same
      exact made.1

theorem makesForClauses : Makes source p.forClauses (ForClauses.MadeOf source) := by
  refine (makesExpect rfl).bind fun _ _ => (makesForInitializer builds).bind fun initializer first => ?_
  refine (makesOptionalExpression builds).bind fun condition test => (makesExpect rfl).bind fun _ _ => ?_
  refine (makesOptionalExpression builds).bind fun increment step => (makesExpect rfl).bind fun _ _ => ?_
  exact builds.statement.bind fun body made => makesPure ⟨first, test, step, made⟩

theorem makesForStatement {line : Nat} :
    Makes source (p.forStatement line) fun s => s.MadeOf source ∧ s.isDeclaration = false := by
  rw [forStatementReads]
  exact (makesForClauses builds).bind fun _ made => makesPure (ForClauses.loopMade made line)

theorem makesIfStatement : Makes source p.ifStatement fun s => s.MadeOf source ∧ s.isDeclaration = false := by
  refine (makesExpect rfl).bind fun _ _ => builds.expression.bind fun condition test => ?_
  refine (makesExpect rfl).bind fun _ _ => builds.statement.bind fun thenBranch made => ?_
  refine makesAccept.bind fun other _ => ?_
  cases other with
  | none => exact makesPure ⟨⟨test, made, trivial⟩, rfl⟩
  | some other =>
    have second : Makes source (some <$> p.statement) (Stmt.MadeOfOption source) := by
      rw [map_eq_pure_bind]
      exact builds.statement.bind fun _ made => makesPure made
    exact second.bind fun elseBranch made' => makesPure ⟨⟨test, made, made'⟩, rfl⟩

theorem makesWhileStatement : Makes source p.whileStatement fun s => s.MadeOf source ∧ s.isDeclaration = false := by
  refine (makesExpect rfl).bind fun _ _ => builds.expression.bind fun condition test => ?_
  exact (makesExpect rfl).bind fun _ _ => builds.statement.bind fun body made => makesPure ⟨⟨test, made⟩, rfl⟩

theorem makesStatementRule : Makes source p.statementRule fun s => s.MadeOf source ∧ s.isDeclaration = false := by
  refine makesPeek.bind fun t _ => ?_
  split
  · exact makesSkip.bind fun _ _ => makesForStatement builds
  · exact makesSkip.bind fun _ _ => makesIfStatement builds
  · exact makesSkip.bind fun _ _ => makesWhileStatement builds
  · refine makesSkip.bind fun _ _ => (makesOptionalExpression builds).bind fun value made => ?_
    exact (makesExpect rfl).bind fun _ _ => makesPure ⟨made, rfl⟩
  · exact makesSkip.bind fun _ _ => (makesBlock builds).bind fun body made => makesPure ⟨made, rfl⟩
  · refine makesSkip.bind fun _ _ => builds.expression.bind fun value made => ?_
    exact (makesExpect rfl).bind fun _ _ => makesPure ⟨made, rfl⟩
  · exact makesExpressionStatement builds

theorem makesFunction {role : FunctionRole} :
    Makes source (p.function role) fun decl => decl.name ≠ none ∧ decl.MadeOf source := by
  refine makesIdent.bind fun name titled => (makesExpect rfl).bind fun _ _ => ?_
  refine makesParameters.bind fun params named => ?_
  refine (makesExpect rfl).bind fun _ _ => (makesBlock builds).bind fun body made => makesPure ⟨?_, ?_⟩
  · exact Option.some_ne_none name
  · exact ⟨fun n same => Option.some.inj same ▸ titled, named.1, named.2, made⟩

theorem makesMethod : Makes source p.method fun r =>
    ∀ member, r = some member → member.2.name ≠ none ∧ member.2.MadeOf source := by
  refine makesAccept.bind fun keyword _ => ?_
  cases keyword with
  | none => exact (makesFunction builds).bind fun decl made => makesPure fun _ same => Option.some.inj same ▸ made
  | some keyword =>
    exact (makesFunction builds).bind fun decl made => makesPure fun _ same => Option.some.inj same ▸ made

omit builds in
theorem makesSuperclass : Makes source superclass fun r =>
    ∀ e, r = some e → ∃ parent : Ident, e = .var parent none ∧ parent.MadeOf source .identifier := by
  refine makesAccept.bind fun less _ => ?_
  cases less with
  | none => exact makesPure fun _ same => by cases same
  | some less =>
    exact makesIdent.bind fun name named => makesPure fun _ same => ⟨name, (Option.some.inj same).symm, named⟩

theorem makesClassDeclaration : Makes source p.classDeclaration (Stmt.MadeOf source) := by
  have members : Makes source p.members fun members =>
      ∀ member ∈ members, member.2.name ≠ none ∧ member.2.MadeOf source :=
    (makesExpect rfl).bind fun _ _ => (makesCollecting makesAtBlockEnd (makesMethod builds)).bind fun _ all =>
      (makesExpect rfl).bind fun _ _ => makesPure all
  refine makesIdent.bind fun name titled => makesSuperclass.bind fun parent known => members.bind fun members all => ?_
  have side : ∀ keep : Bool × FunctionDecl → Bool,
      FunctionDecl.MadeOfAll source ((members.filter keep).map (·.2)) := by
    intro keep
    refine FunctionDecl.madeOfAll.mpr fun decl member => ?_
    obtain ⟨flagged, kept, rfl⟩ := List.mem_map.mp member
    exact all flagged (List.mem_filter.mp kept).1
  exact makesPure ⟨titled, known, side _, side _⟩

theorem makesPlainDeclaration : Makes source p.plainDeclaration (Stmt.MadeOf source) := by
  have statement := (makesStatementRule builds).mono fun _ made => made.1
  refine makesPeek.bind fun t _ => ?_
  split
  · exact makesSkip.bind fun _ _ => makesClassDeclaration builds
  · refine makesPeekSecond.bind fun t _ => ?_
    split
    · exact makesSkip.bind fun _ _ => (makesFunction builds).bind fun decl made => makesPure made
    · exact statement
  · exact makesSkip.bind fun _ _ => makesVarDeclaration builds
  · exact statement

omit builds in
theorem skippedInside (last : Token) (ts : List Token) : skipToStatement last ts ⊆ ts := by
  induction ts generalizing last with
  | nil => exact List.Subset.refl _
  | cons t rest ih =>
    unfold skipToStatement
    split
    · exact List.Subset.refl _
    · exact List.Subset.trans (ih t) (List.subset_cons_self t rest)

omit builds in
theorem synchronizedInside (c : Cursor) : c.synchronize.rest ⊆ c.rest := by
  unfold Cursor.synchronize
  split
  · exact List.Subset.refl _
  · rename_i t rest here
    split
    · exact List.Subset.refl _
    · rw [here]
      exact List.Subset.trans (skippedInside t rest) (List.subset_cons_self t rest)

theorem makesDeclarationRule : Makes source p.declarationRule fun r => ∀ s, r = some s → s.MadeOf source := by
  have plain := makesPlainDeclaration builds
  constructor
  · intro c r c' inside ran
    unfold declarationRule at ran
    cases h : p.plainDeclaration c with
    | ok s c1 =>
      rw [h] at ran
      cases ran
      exact ⟨(plain.ok inside h).1, fun _ same => Option.some.inj same ▸ (plain.ok inside h).2⟩
    | error e c1 =>
      rw [h] at ran
      cases ran
      have left : c1.rest ⊆ source := plain.error inside h
      exact ⟨List.Subset.trans (synchronizedInside (c1.record e)) left, fun _ same => by cases same⟩
  · intro c e c' _ ran
    unfold declarationRule at ran
    split at ran <;> cases ran

theorem buildsNext : p.next.Builds source where
  expression := makesExpressionRule builds
  ternary := makesTernaryRule builds
  unary := makesUnaryRule builds
  statement := makesStatementRule builds
  declaration := makesDeclarationRule builds

end Rules

theorem buildsUpTo (source : List Token) (n : Nat) : (upTo n).Builds source := by
  induction n with
  | zero => exact ⟨makesUnexpected, makesUnexpected, makesUnexpected, makesUnexpected,
      makesPure fun _ same => by cases same⟩
  | succ n ih => exact buildsNext ih

end Phrases

theorem programMadeOf {tokens : List Token} {program : Program} (parsed : parseProgram tokens = .ok program) :
    Stmt.MadeOfAll tokens program := by
  have whole : Parser.Makes tokens (Parser.collecting Parser.atEnd (Phrases.upTo tokens.length).declaration)
      fun ss => ∀ s ∈ ss, s.MadeOf tokens :=
    Parser.makesCollecting Parser.makesAtEnd (Phrases.buildsUpTo tokens _).declaration
  unfold parseProgram at parsed
  cases h : Parser.collecting Parser.atEnd (Phrases.upTo tokens.length).declaration ⟨tokens, []⟩ with
  | ok ss c =>
    simp only [h] at parsed
    split at parsed
    · cases parsed
      exact Stmt.madeOfAll.mpr (whole.ok (List.Subset.refl _) h).2
    · cases parsed
  | error f c =>
    rw [h] at parsed
    cases parsed

theorem expressionMadeOf {tokens : List Token} {e : Expr} (parsed : parseExpression tokens = .ok e) :
    e.MadeOf tokens := by
  have whole : Parser.Makes tokens (wholeExpression (.upTo tokens.length)) (Expr.MadeOf tokens) := by
    refine (Phrases.buildsUpTo tokens _).expression.bind fun e made => Parser.makesAtEnd.bind fun done _ => ?_
    cases done with
    | true => exact Parser.makesPure made
    | false => exact Parser.makesUnexpected
  unfold parseExpression at parsed
  cases h : wholeExpression (.upTo tokens.length) ⟨tokens, []⟩ with
  | ok e' c =>
    rw [h] at parsed
    cases parsed
    exact (whole.ok (List.Subset.refl _) h).2
  | error f c =>
    rw [h] at parsed
    cases parsed

end Treewalk
