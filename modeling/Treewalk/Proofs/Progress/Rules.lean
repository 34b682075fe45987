import Treewalk.Proofs.Progress.Recovery

/-! Every production follows its phrase. Inner productions are used after a token was consumed, so a walk as deep as
there are tokens is deep enough, and no bound on depth or on the length of loops is ever met. -/
namespace Treewalk
namespace Walker

structure Follow (k : Nat) (i : Productions) (p : Phrases) : Prop where
  room : k < i.limit
  expression : Along k i.expression p.expression
  ternary : Along k i.ternary p.ternary
  unary : Along k i.unary p.unary
  statement : Along k i.statement p.statement
  declaration : ∀ s, Ready k s → s.cursor.peek.kind ≠ .eof → Follows s i.declaration p.declaration (Past s)

namespace Follow

variable {k : Nat} {i : Productions} {p : Phrases}

theorem block (inner : Follow k i p) : Along k i.block p.block := by
  have room := Nat.le_of_lt inner.room
  refine (alongCollecting testsAtBlockEnd inner.declaration room).bind fun body => ?_
  exact (strictlyExpect rfl).along.bind fun _ => alongPure _

theorem lambda (inner : Follow k i p) (line : Nat) : Along k (i.lambda line) (p.lambda line) := by
  refine (strictlyExpect rfl).along.bind fun _ => strictlyParameters.along.bind fun params => ?_
  refine (strictlyExpect rfl).along.bind fun _ => inner.block.bind fun body => ?_
  exact alongPure _

theorem primary (inner : Follow k i p) : Along (k + 1) i.primary p.primary := by
  intro s ready
  refine followsPeek ready.fair ?_
  cases kind : s.cursor.peek.kind with
  | symbol mark =>
    cases mark with
    | leftParen =>
      refine followsTaken ready (by simp [kind]) (fun _ _ _ => trivial) (inner.expression.bind fun e => ?_)
      exact (strictlyExpect rfl).along.bind fun _ => alongPure _
    | _ => exact followsUnexpected ready.fair
  | keyword word =>
    cases word with
    | kwFun => exact followsTaken ready (by simp [kind]) (fun _ _ _ => trivial) (inner.lambda _)
    | kwFalse | kwTrue | kwNil | kwThis =>
      exact followsTaken ready (by simp [kind]) (fun _ _ _ => trivial) (alongPure _)
    | _ => exact followsUnexpected ready.fair
  | identifier | string | number => exact followsTaken ready (by simp [kind]) (fun _ _ _ => trivial) (alongPure _)
  | eof => exact followsUnexpected ready.fair

theorem suffix (inner : Follow k i p) (e : Expr) : Steps (k + 1) (i.suffix e) (p.suffix e) := by
  intro s ready
  refine followsPeek ready.fair ?_
  cases kind : s.cursor.peek.kind with
  | symbol mark =>
    cases mark with
    | leftParen =>
      refine followsTaken ready (by simp [kind]) (fun _ _ past _ => past) ?_
      exact (strictlyBracketed inner.expression).along.bind fun _ => alongPure _
    | dot =>
      refine followsTaken ready (by simp [kind]) (fun _ _ past _ => past) ?_
      exact strictlyIdent.along.bind fun _ => alongPure _
    | _ => exact followsPure ready.fair fun none => by cases none
  | _ => exact followsPure ready.fair fun none => by cases none

theorem callRule (inner : Follow k i p) : Along (k + 1) i.callRule p.callRule :=
  inner.primary.bind fun e => alongGrowing inner.suffix inner.room e

theorem unaryRule (inner : Follow k i p) : Along (k + 1) i.unaryRule p.unaryRule :=
  alongOperator rfl (fun _ => inner.unary.bind fun _ => alongPure _) inner.callRule

theorem orRule (inner : Follow k i p) : Along (k + 1) i.orRule p.orRule := by
  have factor : Along (k + 1) i.factorRule p.factorRule := alongLeftAssoc rfl .binary inner.unaryRule inner.room
  have term : Along (k + 1) i.termRule p.termRule := alongLeftAssoc rfl .binary factor inner.room
  have comparison : Along (k + 1) i.comparisonRule p.comparisonRule := alongLeftAssoc rfl .binary term inner.room
  have equality : Along (k + 1) i.equalityRule p.equalityRule := alongLeftAssoc rfl .binary comparison inner.room
  have both : Along (k + 1) i.andRule p.andRule := alongLeftAssoc rfl .logical equality inner.room
  exact alongLeftAssoc rfl .logical both inner.room

theorem ternaryRule (inner : Follow k i p) : Along (k + 1) i.ternaryRule p.ternaryRule := by
  refine inner.orRule.bind fun condition => alongAccept rfl (fun question => ?_) (alongPure _)
  refine inner.expression.bind fun thenBranch => (strictlyExpect rfl).along.bind fun _ => ?_
  exact inner.ternary.bind fun elseBranch => alongPure _

theorem expressionRule (inner : Follow k i p) : Along (k + 1) i.expressionRule p.expressionRule := by
  refine inner.ternaryRule.bind fun target => alongAccept rfl (fun equal => ?_) (alongPure _)
  refine inner.expression.bind fun value => ?_
  cases target with
  | var | get => exact alongPure _
  | _ => exact alongFail

theorem expressionStatement (inner : Follow k i p) : Strictly (k + 1) i.expressionStatement p.expressionStatement :=
  inner.expressionRule.last fun _ => (strictlyExpect rfl).bind fun _ => alongPure _

theorem varDeclaration (inner : Follow k i p) : Along k i.varDeclaration p.varDeclaration := by
  refine strictlyIdent.along.bind fun name => (alongAccepted rfl).bind fun equal => ?_
  have ended (initializer : Option Expr) :
      Along k (do let _ ← Indexed.expect (.symbol .semicolon) .variableEnd; return Stmt.varDecl name initializer)
        (do let _ ← Parser.expect (.symbol .semicolon) .variableEnd; return Stmt.varDecl name initializer) :=
    (strictlyExpect rfl).along.bind fun _ => alongPure _
  cases equal with
  | none => exact (alongPure none).bind ended
  | some _ => exact (alongSome inner.expression).bind ended

theorem forInitializer (inner : Follow k i p) : Along (k + 1) i.forInitializer p.forInitializer := by
  intro s ready
  refine followsPeek ready.fair ?_
  have expression : Follows s (do return some (← i.expressionStatement)) (do return some (← p.expressionStatement))
      Anywhere :=
    inner.expressionStatement.along.bind (fun _ => alongPure _) s ready
  cases kind : s.cursor.peek.kind with
  | symbol mark =>
    cases mark with
    | semicolon => exact followsTaken ready (by simp [kind]) (fun _ _ _ => trivial) (alongPure _)
    | _ => exact expression
  | keyword word =>
    cases word with
    | kwVar =>
      refine followsTaken ready (by simp [kind]) (fun _ _ _ => trivial) ?_
      exact inner.varDeclaration.bind fun _ => alongPure _
    | _ => exact expression
  | _ => exact expression

theorem optionalExpression (inner : Follow k i p) {last : Kind} (mark : last.isMark) :
    Along k (i.optionalExpression last) (p.optionalExpression last) := by
  refine alongCheck mark fun absent => ?_
  cases absent with
  | true => exact alongPure _
  | false => exact inner.expression.bind fun _ => alongPure _

theorem forStatement (inner : Follow k i p) (line : Nat) : Along k (i.forStatement line) (p.forStatement line) := by
  refine (strictlyExpect rfl).along.bind fun _ => inner.forInitializer.fewer.bind fun initializer => ?_
  refine (inner.optionalExpression rfl).bind fun condition => (strictlyExpect rfl).along.bind fun _ => ?_
  refine (inner.optionalExpression rfl).bind fun increment => (strictlyExpect rfl).along.bind fun _ => ?_
  exact inner.statement.bind fun body => alongPure _

theorem ifStatement (inner : Follow k i p) : Along k i.ifStatement p.ifStatement := by
  refine (strictlyExpect rfl).along.bind fun _ => inner.expression.bind fun condition => ?_
  refine (strictlyExpect rfl).along.bind fun _ => inner.statement.bind fun thenBranch => ?_
  refine (alongAccepted rfl).bind fun alternative => ?_
  cases alternative with
  | none => exact (alongPure none).bind fun _ => alongPure _
  | some _ => exact (alongSome inner.statement).bind fun _ => alongPure _

theorem whileStatement (inner : Follow k i p) : Along k i.whileStatement p.whileStatement := by
  refine (strictlyExpect rfl).along.bind fun _ => inner.expression.bind fun condition => ?_
  exact (strictlyExpect rfl).along.bind fun _ => inner.statement.bind fun body => alongPure _

theorem returnStatement (inner : Follow k i p) (keyword : Ident) :
    Along k (i.returnStatement keyword) (p.returnStatement keyword) :=
  (inner.optionalExpression rfl).bind fun _ => (strictlyExpect rfl).along.bind fun _ => alongPure _

theorem printStatement (inner : Follow k i p) : Along k i.printStatement p.printStatement :=
  inner.expression.bind fun _ => (strictlyExpect rfl).along.bind fun _ => alongPure _

theorem statementRule (inner : Follow k i p) : Strictly (k + 1) i.statementRule p.statementRule := by
  intro s ready
  refine followsPeek ready.fair ?_
  have expression := inner.expressionStatement s ready
  cases kind : s.cursor.peek.kind with
  | symbol mark =>
    cases mark with
    | leftBrace =>
      refine followsTaken ready (by simp [kind]) (fun _ _ past => past) ?_
      exact inner.block.bind fun _ => alongPure _
    | _ => exact expression
  | keyword word =>
    cases word with
    | kwFor => exact followsTaken ready (by simp [kind]) (fun _ _ past => past) (inner.forStatement _)
    | kwIf => exact followsTaken ready (by simp [kind]) (fun _ _ past => past) inner.ifStatement
    | kwWhile => exact followsTaken ready (by simp [kind]) (fun _ _ past => past) inner.whileStatement
    | kwReturn => exact followsTaken ready (by simp [kind]) (fun _ _ past => past) (inner.returnStatement _)
    | kwPrint => exact followsTaken ready (by simp [kind]) (fun _ _ past => past) inner.printStatement
    | _ => exact expression
  | _ => exact expression

theorem function (inner : Follow k i p) (role : FunctionRole) : Strictly k (i.function role) (p.function role) := by
  refine strictlyIdent.bind fun name => (strictlyExpect rfl).along.bind fun _ => ?_
  refine strictlyParameters.along.bind fun params => (strictlyExpect rfl).along.bind fun _ => ?_
  exact inner.block.bind fun body => alongPure _

theorem method (inner : Follow k i p) : Strictly k i.method p.method := by
  refine (alongAccepted rfl).last fun shared => ?_
  cases shared <;> exact (inner.function .method).bind fun _ => alongPure _

theorem superclass : Along k Productions.superclass Phrases.superclass := by
  refine (alongAccepted rfl).bind fun less => ?_
  cases less with
  | none => exact alongPure _
  | some _ => exact strictlyIdent.along.bind fun _ => alongPure _

theorem members (inner : Follow k i p) : Along k i.members p.members := by
  have room := Nat.le_of_lt inner.room
  refine (strictlyExpect rfl).along.bind fun _ => ?_
  refine (alongCollecting testsAtBlockEnd (fun s ready _ => inner.method s ready) room).bind fun members => ?_
  exact (strictlyExpect rfl).along.bind fun _ => alongPure _

theorem classDeclaration (inner : Follow k i p) : Along k i.classDeclaration p.classDeclaration := by
  refine strictlyIdent.along.bind fun name => superclass.bind fun superclass => ?_
  exact inner.members.bind fun members => alongPure _

theorem plainDeclaration (inner : Follow k i p) : Strictly (k + 1) i.plainDeclaration p.plainDeclaration := by
  intro s ready
  refine followsPeek ready.fair ?_
  have statement := inner.statementRule s ready
  cases kind : s.cursor.peek.kind with
  | keyword word =>
    cases word with
    | kwClass => exact followsTaken ready (by simp [kind]) (fun _ _ past => past) inner.classDeclaration
    | kwVar => exact followsTaken ready (by simp [kind]) (fun _ _ past => past) inner.varDeclaration
    | kwFun =>
      refine followsSecond rfl fun second => ?_
      split
      · refine followsTaken ready (by simp [kind]) (fun _ _ past => past) ?_
        exact (inner.function .function).along.bind fun _ => alongPure _
      · exact statement
    | _ => exact statement
  | _ => exact statement

/- A declaration that is recovered from moves on too: over the token that it failed at or, if it failed at the first
end token, up to that. -/
theorem declarationRule (inner : Follow k i p) (s : Walker) (ready : Ready (k + 1) s)
    (more : s.cursor.peek.kind ≠ .eof) : Follows s i.declarationRule p.declarationRule (Past s) := by
  have plain := inner.plainDeclaration s ready
  unfold Follows at plain
  unfold Follows Productions.declarationRule Phrases.declarationRule
  revert plain
  generalize i.plainDeclaration s = r
  generalize p.plainDeclaration s.cursor = q
  intro plain
  cases plain with
  | ok onward past => exact .ok onward past
  | @error e after onward =>
    have fair := onward.fair
    have failed : Fair { after with errors := after.errors ++ [e] } :=
      ⟨fair.ends, fair.inside, fair.sorted, fair.latest, fair.last, fair.rounds, fair.recoveries⟩
    have room : after.left ≤ i.limit := Nat.le_trans (ready.onward onward).near inner.room
    obtain ⟨last, ran, later, same, past⟩ := synchronizeFound failed room
    have onwardLast : Onward s last := onward.trans ⟨later.tokens, later.current, later.fair⟩
    have moved : s.current < last.current := by
      by_cases ended : after.cursor.peek.kind = .eof
      · have here := fair.ended.mp ended
        rw [onward.tokens] at here
        exact Nat.lt_of_lt_of_le (here ▸ ready.fair.before more) later.current
      · exact Nat.lt_of_le_of_lt onward.current (past ended)
    change Agrees s (Past s) ((Indexed.synchronize i.limit >>= fun _ => pure none) _) (.ok none (after.cursor.record e).synchronize)
    rw [bindFound ran, show (after.cursor.record e).synchronize = last.cursor from same]
    exact .ok onwardLast moved

theorem next (inner : Follow k i p) (room : k + 1 < i.limit) : Follow (k + 1) i.next p.next where
  room := room
  expression := inner.expressionRule
  ternary := inner.ternaryRule
  unary := inner.unaryRule
  statement := inner.statementRule.along
  declaration := inner.declarationRule

theorem vacuous (i : Productions) (p : Phrases) (room : 0 < i.limit) : Follow 0 i p := by
  have never (s : Walker) (ready : Ready 0 s) : False := Nat.not_lt_of_le ready.near ready.fair.remains
  exact ⟨room, fun s ready => (never s ready).elim, fun s ready => (never s ready).elim, fun s ready => (never s ready).elim,
    fun s ready => (never s ready).elim, fun s ready => (never s ready).elim⟩

theorem limitKept (limit depth : Nat) : (Productions.upTo limit depth).limit = limit := by
  induction depth with
  | zero => rfl
  | succ depth ih => exact ih

theorem upTo {limit : Nat} (room : k < limit) {depth level : Nat} (deep : k ≤ depth) (levels : k ≤ level) :
    Follow k (Productions.upTo limit depth) (Phrases.upTo level) := by
  induction k generalizing depth level with
  | zero => exact vacuous _ _ (by rwa [limitKept])
  | succ k ih =>
    cases depth with
    | zero => cases deep
    | succ depth =>
      cases level with
      | zero => cases levels
      | succ level =>
        have inner := ih (Nat.lt_of_succ_lt room) (Nat.le_of_succ_le_succ deep) (Nat.le_of_succ_le_succ levels)
        exact inner.next (by rwa [limitKept])

end Follow

/- What a walk over `tokens` wrote down by the time it stopped at `s`: it never went back, never past the first end
token, every round of a loop began before that token and moved on, and every recovery ended where a statement may
start. -/
structure Progressed (tokens : List Token) (s : Walker) : Prop where
  sorted : s.path.Pairwise (· ≤ ·)
  inside : ∀ i ∈ s.path, i ≤ firstEnd tokens
  last : s.path.getLast? = some s.current
  rounds : ∀ span ∈ s.rounds, span.1 < firstEnd tokens ∧ span.1 < span.2
  recoveries : ∀ span ∈ s.recoveries, Recovered tokens span

theorem Onward.progressed {s after : Walker} (onward : Onward s after) : Progressed s.tokens after := by
  rw [← onward.tokens]
  have fair := onward.fair
  exact ⟨fair.sorted, fun i mem => Nat.le_trans (fair.latest i mem) fair.inside, fair.last, fair.rounds, fair.recoveries⟩

theorem startReady {tokens : List Token} (ends : ∃ t ∈ tokens, t.kind = .eof) :
    Ready tokens.length (.start tokens) := by
  obtain ⟨t, mem, kind⟩ := ends
  have found : firstEnd tokens < tokens.length := List.findIdx_lt_length_of_exists ⟨t, mem, Kind.agreesEnd.mpr kind⟩
  refine ⟨⟨found, Nat.zero_le _, List.pairwise_singleton _ _, fun i mem => ?_, rfl, List.forall_mem_nil _,
    List.forall_mem_nil _⟩, Nat.sub_le _ _⟩
  exact Nat.le_of_eq (List.mem_singleton.mp mem)

theorem declarationOk (level : Nat) (c : Cursor) : ∃ d after, (Phrases.upTo level).declaration c = .ok d after := by
  cases level with
  | zero => exact ⟨none, c, rfl⟩
  | succ level =>
    change ∃ d after, Phrases.declarationRule (Phrases.upTo level) c = .ok d after
    unfold Phrases.declarationRule
    split <;> exact ⟨_, _, rfl⟩

theorem collectOk {item : Parser (Option α)} (items : ∀ c, ∃ x after, item c = .ok x after) (bound : List Token)
    (c : Cursor) : ∃ xs after, Parser.collect Parser.atEnd item bound c = .ok xs after := by
  induction bound generalizing c with
  | nil => exact ⟨[], c, rfl⟩
  | cons _ bound ih =>
    change ∃ xs after, (if c.atEnd = true then _ else _ : Parser (List α)) c = .ok xs after
    split
    · exact ⟨[], c, rfl⟩
    · obtain ⟨x, middle, found⟩ := items c
      obtain ⟨xs, last, rest⟩ := ih middle
      exact ⟨x.toList ++ xs, last, (Parser.bindOk found).trans (Parser.bindOk rest)⟩

theorem wholeAlong {k : Nat} {i : Productions} {p : Phrases} (follow : Follow k i p) : Along k
    (do let e ← i.expression; if ← Indexed.atEnd then return e else Indexed.unexpected .endOfExpression)
    (wholeExpression p) := by
  refine follow.expression.bind fun e s ready => ?_
  obtain ⟨b, found, found', -⟩ := testsAtEnd s ready.fair
  change Agrees s _ ((Indexed.atEnd >>= _) s) (EStateM.bind Parser.atEnd _ s.cursor)
  rw [bindFound found, EStateM.bind, found']
  cases b with
  | true => exact followsPure ready.fair trivial
  | false => exact followsUnexpected ready.fair

/- On every token list with an end token at its end, both ways to parse come to their result: the walk by positions reads
no token outside the list, meets no bound larger than the list, and progresses; and its result is the parser's. -/
theorem parsingProgresses {tokens : List Token} {last : Token} (ends : tokens.getLast? = some last)
    (kind : last.kind = .eof) {limit : Nat} (enough : tokens.length < limit) :
    (∃ program s, indexedProgram limit tokens = .ok program s ∧ Progressed tokens s ∧
      parseProgram tokens = if s.errors.isEmpty then .ok program else .error s.errors) ∧
    ((∃ e s, indexedExpression limit tokens = .ok e s ∧ Progressed tokens s ∧ parseExpression tokens = .ok e) ∨
      ∃ e s, indexedExpression limit tokens = .error (.fault e) s ∧ Progressed tokens s ∧
        parseExpression tokens = .error e) := by
  have ready := startReady ⟨last, List.mem_of_getLast? ends, kind⟩
  have follow := Follow.upTo enough (Nat.le_of_lt enough) (Nat.le_refl tokens.length)
  constructor
  · have walked := alongCollecting testsAtEnd follow.declaration (Nat.le_of_lt enough) _ ready
    obtain ⟨program, c, ran⟩ := collectOk (declarationOk tokens.length) tokens ⟨tokens, []⟩
    have same : Parser.collecting Parser.atEnd (Phrases.upTo tokens.length).declaration ⟨tokens, []⟩ = .ok program c := ran
    change Agrees _ _ (indexedProgram limit tokens) (Parser.collecting Parser.atEnd _ ⟨tokens, []⟩) at walked
    rw [same] at walked
    rw [parseProgram, same]
    generalize indexedProgram limit tokens = result at walked
    cases walked with
    | ok onward _ => exact ⟨program, _, rfl, onward.progressed, rfl⟩
  · have walked := wholeAlong follow _ ready
    change Agrees _ _ (indexedExpression limit tokens) (wholeExpression _ ⟨tokens, []⟩) at walked
    rw [parseExpression]
    generalize indexedExpression limit tokens = result at walked
    generalize wholeExpression (Phrases.upTo tokens.length) ⟨tokens, []⟩ = result' at walked
    cases walked with
    | ok onward _ => exact .inl ⟨_, _, rfl, onward.progressed, rfl⟩
    | error onward => exact .inr ⟨_, _, rfl, onward.progressed, rfl⟩

def brokenBlock : List Token :=
  [⟨.symbol .leftBrace, "\x7b", 1⟩, ⟨.keyword .kwVar, "var", 1⟩, ⟨.symbol .semicolon, ";", 1⟩, ⟨.eof, "", 1⟩]

def stopped : EStateM.Result Stop Walker α → Walker
  | .ok _ s => s
  | .error _ s => s

/- The declaration fails at its semicolon and the block at the end of the list; both are recovered from. -/
theorem brokenBlockProgresses :
    ((stopped (indexedProgram 5 brokenBlock)).path = [0, 1, 2, 3, 3] ∧
      (stopped (indexedProgram 5 brokenBlock)).rounds = [(1, 3), (0, 3)] ∧
      (stopped (indexedProgram 5 brokenBlock)).recoveries = [(2, 3), (3, 3)]) ∧
    (∃ program s, indexedProgram 5 brokenBlock = .ok program s ∧ Progressed brokenBlock s ∧
      parseProgram brokenBlock = if s.errors.isEmpty then .ok program else .error s.errors) ∧
    ((∃ e s, indexedExpression 5 brokenBlock = .ok e s ∧ Progressed brokenBlock s ∧ parseExpression brokenBlock = .ok e) ∨
      ∃ e s, indexedExpression 5 brokenBlock = .error (.fault e) s ∧ Progressed brokenBlock s ∧
        parseExpression brokenBlock = .error e) :=
  ⟨by decide +kernel, parsingProgresses rfl rfl (by decide)⟩

end Walker
end Treewalk
