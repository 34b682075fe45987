import Treewalk.Proofs.Parsing.Sound

/-! What the parts that rules are made of read. Two things decide what a rule does with a token: which tokens start a
phrase, and how tightly a token binds to an expression that it follows. -/
namespace Treewalk
namespace Grammar

def headKind (ts : List Token) : Kind := (ts.headD Token.missingEnd).kind

@[simp] theorem headKindCons (t : Token) (ts : List Token) : headKind (t :: ts) = t.kind := rfl

def opensCall : Kind → Bool
  | .keyword .kwFalse | .keyword .kwTrue | .keyword .kwNil | .keyword .kwThis | .keyword .kwFun => true
  | .symbol .leftParen | .identifier | .number _ | .string _ => true
  | _ => false

def opensExpression : Kind → Bool
  | .symbol .bang | .symbol .minus => true
  | k => opensCall k

def opensStatement : Kind → Bool
  | .keyword .kwFor | .keyword .kwIf | .keyword .kwWhile | .keyword .kwReturn | .keyword .kwPrint => true
  | .symbol .leftBrace => true
  | k => opensExpression k

def opensDeclaration : Kind → Bool
  | .keyword .kwClass | .keyword .kwVar => true
  | k => opensStatement k

inductive Starts (opens : Kind → Bool) : List Token → Prop where
  | plain {t ts} (kind : opens t.kind = true) (noFun : t.kind ≠ .keyword .kwFun) : Starts opens (t :: ts)
  | lambda {t u ts} (kind : t.kind = .keyword .kwFun) (bracket : u.kind = .symbol .leftParen) :
      Starts opens (t :: u :: ts)

theorem Starts.append {opens ts} (start : Starts opens ts) (us : List Token) : Starts opens (ts ++ us) := by
  cases start with
  | plain kind noFun => exact .plain kind noFun
  | lambda kind bracket => exact .lambda kind bracket

theorem Starts.weaken {opens opens' : Kind → Bool} {ts} (start : Starts opens ts)
    (more : ∀ k, opens k = true → opens' k = true) : Starts opens' ts := by
  cases start with
  | plain kind noFun => exact .plain (more _ kind) noFun
  | lambda kind bracket => exact .lambda kind bracket

theorem Starts.notKind {opens ts} (start : Starts opens ts) {k : Kind} (closed : opens k = false)
    (noFun : k ≠ .keyword .kwFun) (us : List Token) : headKind (ts ++ us) ≠ k := by
  rintro rfl
  cases start with
  | plain kind => simp_all
  | lambda kind => simp_all

theorem primaryStarts {ts e} (phrase : Primary ts e) : Starts opensCall ts := by
  cases phrase with
  | lambda start before => exact .lambda start before
  | number kind | string kind | true kind | false kind | nil kind | this kind | name kind | grouping kind =>
    exact .plain (by simp [kind,opensCall]) (by simp [kind])

theorem callStarts {ts e} (phrase : Call ts e) : Starts opensCall ts := by
  cases phrase with
  | mk head tail => exact (primaryStarts head).append _

theorem opensExpressionCall (k : Kind) (opens : opensCall k = true) : opensExpression k = true := by
  unfold opensExpression
  split <;> simp_all

theorem unaryStarts {ts e} (phrase : Unary ts e) : Starts opensExpression ts := by
  cases phrase with
  | operation operator inner =>
    simp only [prefixOperators,List.mem_cons,Prod.mk.injEq,List.not_mem_nil,or_false] at operator
    rcases operator with ⟨kind,_⟩ | ⟨kind,_⟩
    · exact .plain (by simp [kind,opensExpression]) (by simp [kind])
    · exact .plain (by simp [kind,opensExpression]) (by simp [kind])
  | call inner => exact (callStarts inner).weaken opensExpressionCall

mutual

theorem chainStarts : ∀ {level ts e}, Chain level ts e → Starts opensExpression ts
  | _,_,_,.mk head _ => (operandStarts head).append _

theorem operandStarts : ∀ {level ts e}, Operand level ts e → Starts opensExpression ts
  | _,_,_,.chain _ inner => chainStarts inner
  | _,_,_,.unary _ inner => unaryStarts inner

end

theorem ternaryStarts {ts e} (phrase : Ternary ts e) : Starts opensExpression ts := by
  cases phrase with
  | plain inner => exact chainStarts inner
  | choice test => exact (chainStarts test).append _

theorem expressionStarts {ts e} (phrase : Expression ts e) : Starts opensExpression ts := by
  cases phrase with
  | assign target => exact .plain (by simp [target,opensExpression,opensCall]) (by simp [target])
  | set receiver => exact ((callStarts receiver).weaken opensExpressionCall).append _
  | ternary inner => exact ternaryStarts inner

theorem expressionStatementStarts {ts s} (phrase : ExpressionStatement ts s) : Starts opensExpression ts := by
  cases phrase with
  | mk inner => exact (expressionStarts inner).append _

theorem statementStarts {short ts s} (phrase : Statement short ts s) : Starts opensStatement ts := by
  cases phrase with
  | expression inner =>
    refine (expressionStatementStarts inner).weaken fun k kind => ?_
    unfold opensStatement
    split <;> simp_all
  | block inner =>
    cases inner with
    | mk before => exact .plain (by simp [before,opensStatement]) (by simp [before])
  | print start | returned start | whileLoop start | ifOnly start | ifElse start | forLoop start =>
    exact .plain (by simp [start,opensStatement]) (by simp [start])

def tightness : Kind → Nat
  | .symbol .equal => 1
  | .symbol .question => 2
  | .keyword .kwOr => 3
  | .keyword .kwAnd => 4
  | .symbol .bangEqual | .symbol .equalEqual => 5
  | .symbol .greater | .symbol .greaterEqual | .symbol .less | .symbol .lessEqual => 6
  | .symbol .minus | .symbol .plus => 7
  | .symbol .slash | .symbol .star => 8
  | .symbol .leftParen | .symbol .dot => 9
  | _ => 0

def Level.tightness : Level → Nat
  | .or => 3
  | .and => 4
  | .equality => 5
  | .comparison => 6
  | .term => 7
  | .factor => 8

def Stops (bound : Nat) (rest : List Token) : Prop := Grammar.tightness (headKind rest) < bound

theorem Stops.mono {low high : Nat} {rest : List Token} (stops : Stops low rest) (le : low ≤ high) :
    Stops high rest := Nat.lt_of_lt_of_le stops le

theorem Stops.notKind {bound : Nat} {rest : List Token} {k : Kind} (stops : Stops bound rest)
    (tight : bound ≤ Grammar.tightness k) : headKind rest ≠ k := by
  rintro rfl
  exact Nat.lt_irrefl _ (Nat.lt_of_lt_of_le stops tight)

end Grammar

namespace Parser
open Grammar

def Reads (p : Parser α) (ts : List Token) (a : α) (rest : List Token) : Prop :=
  ∀ errors, p ⟨ts ++ rest,errors⟩ = .ok a ⟨rest,errors⟩

theorem readsBind {p : Parser α} {f : α → Parser β} {rest : List Token} {a : α} {b : β} (ts us : List Token)
    (first : Reads p ts a (us ++ rest)) (second : Reads (f a) us b rest) :
    Reads (p >>= f) (ts ++ us) b rest := by
  intro errors
  rw [List.append_assoc,bindOk (first errors)]
  exact second errors

theorem Reads.token {p : Parser α} {f : α → Parser β} {t : Token} {us rest : List Token} {a : α} {b : β}
    (first : Reads p [t] a (us ++ rest)) (second : Reads (f a) us b rest) : Reads (p >>= f) (t :: us) b rest :=
  readsBind [t] us first second

theorem Reads.closed {p : Parser α} {f : α → Parser β} {ts us rest : List Token} {t : Token} {a : α} {b : β}
    (first : Reads p (ts ++ [t]) a (us ++ rest)) (second : Reads (f a) us b rest) :
    Reads (p >>= f) (ts ++ t :: us) b rest := by
  simpa using readsBind (ts ++ [t]) us first second

theorem Reads.last {p : Parser α} {f : α → Parser β} {ts rest : List Token} {a : α} {b : β}
    (first : Reads p ts a rest) (second : Reads (f a) [] b rest) : Reads (p >>= f) ts b rest := by
  simpa using readsBind ts [] first second

theorem readsPure (a : α) (rest : List Token) : Reads (pure a) [] a rest := fun _ => rfl

theorem readsExpect {k : Kind} {what : Expected} {t : Token} (mark : k.isMark) (kind : t.kind = k)
    (rest : List Token) : Reads (expect k what) [t] t rest := by
  intro errors
  have agrees := (Kind.agreesMark mark).mpr kind
  change (if t.kind.agrees k then _ else _ : Parser Token) _ = _
  rw [if_pos agrees]
  rfl

theorem readsAccept {k : Kind} {t : Token} (mark : k.isMark) (kind : t.kind = k) (rest : List Token) :
    Reads (accept k) [t] (some t) rest := by
  intro errors
  have agrees := (Kind.agreesMark mark).mpr kind
  change (if t.kind.agrees k then _ else _ : Parser (Option Token)) _ = _
  rw [if_pos agrees]
  rfl

theorem readsNoAccept {k : Kind} {rest : List Token} (mark : k.isMark) (kind : headKind rest ≠ k) :
    Reads (accept k) [] none rest := by
  intro errors
  have differs : (headKind rest).agrees k ≠ true := fun agrees => kind ((Kind.agreesMark mark).mp agrees)
  change (if (headKind rest).agrees k then _ else _ : Parser (Option Token)) _ = _
  rw [if_neg differs]
  rfl

theorem readsIdent {what : Expected} {ts : List Token} {name : Ident} (phrase : Name ts name)
    (rest : List Token) : Reads (ident what) ts name rest := by
  cases phrase with
  | mk kind => exact (readsExpect rfl kind rest).last (readsPure _ rest)

theorem readsPeek {f : Token → Parser α} {t : Token} {ts rest : List Token} {a : α}
    (next : Reads (f t) (t :: ts) a rest) : Reads (peek >>= f) (t :: ts) a rest := next

theorem readsPeekRest {f : Token → Parser α} {rest : List Token} {a : α}
    (next : Reads (f (rest.headD Token.missingEnd)) [] a rest) : Reads (peek >>= f) [] a rest := next

theorem readsSkip {p : Parser α} {t : Token} {ts rest : List Token} {a : α} (next : Reads p ts a rest) :
    Reads (skip >>= fun _ => p) (t :: ts) a rest := next

theorem readsOperator {table : Kind → Option α} {t : Token} {op : α} (found : table t.kind = some op)
    (rest : List Token) : Reads (operator table) [t] (some (op,t.line)) rest := by
  apply readsPeek
  rw [found]
  exact readsSkip (readsPure _ rest)

theorem readsNoOperator {table : Kind → Option α} {rest : List Token} (absent : table (headKind rest) = none) :
    Reads (operator table) [] none rest := by
  apply readsPeekRest
  change table (rest.headD Token.missingEnd).kind = none at absent
  rw [absent]
  exact readsPure _ rest

def EndsItem (rest : List Token) : Prop :=
  headKind rest = .symbol .comma ∨ headKind rest = .symbol .rightParen

theorem readsCommaList {item : Parser α} {full : SyntaxFault} {phrase : List Token → α → Prop} {n : Nat}
    (items : ∀ {ts x rest}, phrase ts x → ts.length ≤ n → EndsItem rest → Reads item ts x rest)
    {ts : List Token} {xs : List α} (list : Separated phrase ts xs) {room : Nat} {rest : List Token}
    (few : xs.length ≤ room) (short : ts.length ≤ n) (closes : headKind rest = .symbol .rightParen) :
    Reads (commaList item full room) ts xs rest := by
  induction list generalizing room with
  | last first =>
    obtain ⟨room,rfl⟩ : ∃ m, room = m + 1 := Nat.exists_eq_succ_of_ne_zero (by rintro rfl; simp at few)
    have noComma : Reads (accept (.symbol .comma)) [] none rest := readsNoAccept rfl (by simp [closes])
    exact (items first short (.inr closes)).last (noComma.last (readsPure _ rest))
  | @more us comma vs x xs first divider tail ih =>
    obtain ⟨room,rfl⟩ : ∃ m, room = m + 1 := Nat.exists_eq_succ_of_ne_zero (by rintro rfl; simp at few)
    simp only [List.length_append,List.length_cons] at short few
    have later : Reads (commaList item full room) vs xs rest := ih (by omega) (by omega)
    refine readsBind us (comma :: vs) (items first (by omega) (.inl divider)) ?_
    exact (readsAccept rfl divider _).token (later.last (readsPure _ rest))

theorem readsCheck {k : Kind} {f : Bool → Parser α} {ts rest : List Token} {a : α}
    (next : Reads (f ((headKind (ts ++ rest)).agrees k)) ts a rest) : Reads (check k >>= f) ts a rest := next

theorem notAgrees {k k' : Kind} (mark : k.isMark) (differs : k' ≠ k) : k'.agrees k = false := by
  simpa using fun agrees => differs ((Kind.agreesMark mark).mp agrees)

theorem notEnd {k : Kind} (differs : k ≠ .eof) : k.agrees .eof = false := by
  simpa using fun agrees => differs (Kind.agreesEnd.mp agrees)

theorem readsBracketed {item : Parser α} {full : SyntaxFault} {close : Expected}
    {phrase : List Token → α → Prop} {n : Nat}
    (items : ∀ {ts x rest}, phrase ts x → ts.length ≤ n → EndsItem rest → Reads item ts x rest)
    {ts : List Token} {xs : List α} {closing : Token} (list : Separated phrase ts xs) (few : xs.length ≤ 255)
    (starts : headKind (ts ++ [closing]) ≠ .symbol .rightParen) (short : ts.length ≤ n)
    (kind : closing.kind = .symbol .rightParen) (rest : List Token) :
    Reads (bracketed item full close) (ts ++ [closing]) (xs,closing) rest := by
  have unclosed : headKind (ts ++ [closing] ++ rest) ≠ .symbol .rightParen := by
    cases ts <;> simpa using starts
  refine readsCheck ?_
  rw [notAgrees rfl unclosed]
  refine readsBind ts [closing] (readsCommaList items list few short kind) ?_
  exact (readsExpect rfl kind rest).last (readsPure _ rest)

theorem readsEmptyBrackets {item : Parser α} {full : SyntaxFault} {close : Expected} {closing : Token}
    (kind : closing.kind = .symbol .rightParen) (rest : List Token) :
    Reads (bracketed item full close) [closing] ([],closing) rest := by
  refine readsCheck ?_
  rw [show (headKind ([closing] ++ rest)).agrees (.symbol .rightParen) = true from
    (Kind.agreesMark rfl).mpr kind]
  exact (readsExpect rfl kind rest).last (readsPure _ rest)

theorem separatedNames {ts names} (list : Separated Name ts names) : headKind ts = .identifier := by
  cases list with
  | last item | more item => cases item; assumption

theorem readsParameters {ts : List Token} {names : List Ident} {closing : Token} (list : Parameters ts names)
    (kind : closing.kind = .symbol .rightParen) (rest : List Token) :
    Reads parameters (ts ++ [closing]) names rest := by
  cases list with
  | none => exact (readsEmptyBrackets kind rest).last (readsPure _ rest)
  | some list few =>
    have starts : headKind (ts ++ [closing]) ≠ .symbol .rightParen := by
      have first := separatedNames list
      cases ts with
      | nil => cases first
      | cons t ts => simpa using by simp_all
    exact (readsBracketed (fun item _ _ => readsIdent item _) list few starts (Nat.le_refl _) kind rest).last
      (readsPure _ rest)

inductive Sequence (phrase : List Token → α → Prop) : List Token → List α → Prop where
  | none : Sequence phrase [] []
  | more {ts us x xs} (head : phrase ts x) (tail : Sequence phrase us xs) : Sequence phrase (ts ++ us) (x :: xs)

theorem readsCollect {stop : Parser Bool} {item : Parser (Option α)} {phrase : List Token → α → Prop} {n : Nat}
    (starts : ∀ {ts x}, phrase ts x → ∀ us, Reads stop [] false (ts ++ us) ∧
      headKind (ts ++ us) ≠ .keyword .kwElse ∧ ts ≠ [])
    (items : ∀ {ts x rest}, phrase ts x → ts.length ≤ n → headKind rest ≠ .keyword .kwElse →
      Reads item ts (some x) rest)
    {rest : List Token} (stops : Reads stop [] true rest) (final : headKind rest ≠ .keyword .kwElse)
    {ts : List Token} {xs : List α}
    (list : Sequence phrase ts xs) (short : ts.length ≤ n) {bound : List Token}
    (enough : ts.length ≤ bound.length) : Reads (collect stop item bound) ts xs rest := by
  induction list generalizing bound with
  | none =>
    cases bound with
    | nil => exact readsPure [] rest
    | cons _ bound => exact stops.last (readsPure [] rest)
  | @more us vs x xs head tail ih =>
    have some := List.length_pos_iff.mpr (starts head []).2.2
    simp only [List.length_append] at short enough
    cases bound with
    | nil =>
      simp only [List.length_nil] at enough
      omega
    | cons _ bound =>
      simp only [List.length_cons] at enough
      have noElse : headKind (vs ++ rest) ≠ .keyword .kwElse := by
        cases tail with
        | none => exact final
        | more next _ =>
          rw [List.append_assoc]
          exact (starts next _).2.1
      have going : Reads stop [] false (us ++ vs ++ rest) := by
        rw [List.append_assoc]
        exact (starts head _).1
      refine readsBind [] (us ++ vs) going ?_
      refine readsBind us vs (items head (by omega) noElse) ?_
      exact (ih (by omega) (by omega)).last (readsPure _ rest)

theorem operatorTightness (level : Level) :
    ∀ operator ∈ level.operators, Grammar.tightness operator.1 = level.tightness := by
  cases level <;> simp [Level.operators,Grammar.tightness,Level.tightness]

theorem chainTailStops {level l ts e rest} (tail : ChainTail level l ts e) (stops : Stops level.tightness rest) :
    Stops (level.tightness + 1) (ts ++ rest) := by
  cases tail with
  | stop => exact stops.mono (Nat.le_succ _)
  | step sign => exact Nat.lt_succ_of_le (Nat.le_of_eq (operatorTightness level _ sign))

theorem Tabled.looser {level : Level} {table : Kind → Option α} {build : Expr → α → Expr → Nat → Expr}
    (tabled : Tabled level table build) {k : Kind} (loose : Grammar.tightness k < level.tightness) :
    table k = none := by
  cases found : table k with
  | none => rfl
  | some op =>
    have same := operatorTightness level _ (tabled.listed k op found)
    exact absurd loose (Nat.not_lt_of_le (Nat.le_of_eq same.symm))

theorem readsChainTail {level : Level} {table : Kind → Option α} {build : Expr → α → Expr → Nat → Expr}
    {operand : Parser Expr} {n : Nat} (tabled : Tabled level table build)
    (operands : ∀ {ts e rest}, Operand level ts e → ts.length ≤ n → Stops (level.tightness + 1) rest →
      Reads operand ts e rest)
    (bound : List Token) {rest : List Token} (stops : Stops level.tightness rest) {l : Expr} {ts : List Token}
    {e : Expr} (tail : ChainTail level l ts e) (short : ts.length ≤ n) (enough : ts.length ≤ bound.length) :
    Reads (grow (operation table build operand) bound l) ts e rest := by
  induction bound generalizing l ts with
  | nil =>
    cases tail with
    | stop => exact readsPure _ rest
    | step => simp at enough
  | cons _ bound ih =>
    cases tail with
    | stop =>
      have nothing : Reads (operation table build operand e) [] none rest :=
        (readsNoOperator (Tabled.looser tabled stops)).last (readsPure _ rest)
      exact nothing.last (readsPure e rest)
    | @step _ _ op _ right r more _ sign inner tail =>
      simp only [List.length_cons,List.length_append] at short enough
      obtain ⟨o,found,built⟩ := tabled.found _ sign
      simp only at built
      subst built
      have next := operands inner (by omega) (chainTailStops tail stops)
      have once : Reads (operation table build operand l) (op :: right) (some (build l o r op.line))
          (more ++ rest) := by
        exact (readsOperator found _).token (next.last (readsPure _ _))
      exact readsBind (op :: right) more once (ih tail (by omega) (by omega))

theorem readsLeftAssoc {level : Level} {table : Kind → Option α} {build : Expr → α → Expr → Nat → Expr}
    {operand : Parser Expr} {n : Nat} (tabled : Tabled level table build)
    (operands : ∀ {ts e rest}, Operand level ts e → ts.length ≤ n → Stops (level.tightness + 1) rest →
      Reads operand ts e rest)
    {ts : List Token} {e : Expr} {rest : List Token} (phrase : Chain level ts e) (short : ts.length ≤ n)
    (stops : Stops level.tightness rest) : Reads (leftAssoc table build operand) ts e rest := by
  cases phrase with
  | @mk _ first more l _ head tail =>
    simp only [List.length_append] at short
    refine readsBind first more (operands head (by omega) (chainTailStops tail stops)) fun errors => ?_
    exact readsChainTail tabled operands (more ++ rest) stops tail (by omega) (by simp) errors

end Parser
end Treewalk
