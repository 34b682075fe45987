import Treewalk.Proofs.Parsing.Reads

/-! The rules of the parser accept every phrase of the grammar, whatever follows it that cannot be read as part of
it. -/
namespace Treewalk

namespace Phrases
open Grammar Treewalk.Parser

structure IsComplete (p : Phrases) (n : Nat) : Prop where
  expression : ∀ {ts e rest}, Expression ts e → ts.length ≤ n → Stops 1 rest → Reads p.expression ts e rest
  ternary : ∀ {ts e rest}, Ternary ts e → ts.length ≤ n → Stops 2 rest → Reads p.ternary ts e rest
  unary : ∀ {ts e rest}, Unary ts e → ts.length ≤ n → Stops 9 rest → Reads p.unary ts e rest
  statement : ∀ {short ts s rest}, Statement short ts s → ts.length ≤ n →
    (short = true → headKind rest ≠ .keyword .kwElse) → Reads p.statement ts s rest
  declaration : ∀ {ts s rest}, Declaration ts s → ts.length ≤ n → headKind rest ≠ .keyword .kwElse →
    Reads p.declaration ts (some s) rest

variable {p : Phrases} {n : Nat}

theorem stopsAt {k : Kind} {rest : List Token} (kind : headKind rest = k) (loose : Grammar.tightness k = 0) :
    Stops 1 rest := by
  unfold Stops
  rw [kind,loose]
  exact Nat.one_pos

theorem declarationStarts {ts s} (phrase : Declaration ts s) (us : List Token) :
    opensDeclaration (headKind (ts ++ us)) = true := by
  cases phrase with
  | classDecl start | subclass start | funDecl start =>
    simp [start,opensDeclaration,opensStatement,opensExpression,opensCall]
  | varDecl inner => cases inner with
    | bare start | initialized start => simp [start,opensDeclaration]
  | statement inner =>
    cases statementStarts inner with
    | plain kind =>
      simp only [List.cons_append,headKindCons]
      unfold opensDeclaration
      split <;> simp_all
    | lambda kind => simp [kind,opensDeclaration,opensStatement,opensExpression,opensCall]

theorem declarationNotKind {ts s} (phrase : Declaration ts s) (us : List Token) {k : Kind}
    (closed : opensDeclaration k = false) : headKind (ts ++ us) ≠ k := by
  intro same
  have opens := declarationStarts phrase us
  rw [same,closed] at opens
  cases opens

theorem sequenceOfDeclarations : ∀ {ts ss}, Declarations ts ss → Sequence Declaration ts ss
  | _,_,.none => .none
  | _,_,.more head tail => .more head (sequenceOfDeclarations tail)

theorem readsAtEnd {rest : List Token} {b : Bool} (same : (headKind rest).agrees .eof = b) :
    Reads atEnd [] b rest := fun _ => same ▸ rfl

theorem readsAtBlockEnd {rest : List Token} {b : Bool}
    (same : ((headKind rest).agrees (.symbol .rightBrace) || (headKind rest).agrees .eof) = b) :
    Reads atBlockEnd [] b rest := fun _ => same ▸ rfl

theorem readsBlock (complete : p.IsComplete n) {ts : List Token} {body : List Stmt} {closing : Token}
    (inner : Declarations ts body) (short : ts.length ≤ n) (kind : closing.kind = .symbol .rightBrace)
    (rest : List Token) : Reads p.block (ts ++ [closing]) body rest := by
  have starts {us s} (phrase : Declaration us s) (vs : List Token) :
      Reads atBlockEnd [] false (us ++ vs) ∧ headKind (us ++ vs) ≠ .keyword .kwElse ∧ us ≠ [] := by
    refine ⟨readsAtBlockEnd ?_,declarationNotKind phrase vs rfl,declarationNotEmpty phrase⟩
    rw [notAgrees rfl (declarationNotKind phrase vs rfl),notEnd (declarationNotKind phrase vs rfl)]
    rfl
  have stops : Reads atBlockEnd [] true ([closing] ++ rest) := readsAtBlockEnd (by simp [kind,Kind.agrees])
  have list : Reads (collecting atBlockEnd p.declaration) ts body ([closing] ++ rest) := fun errors =>
    readsCollect starts complete.declaration stops (by simp [kind]) (sequenceOfDeclarations inner) short
      (by simp) errors
  refine readsBind ts [closing] list ?_
  exact (readsExpect rfl kind rest).last (readsPure _ rest)

theorem readsLambda (complete : p.IsComplete n) {keyword : Token} {ts : List Token} {e : Expr}
    (phrase : Primary (keyword :: ts) e) (start : keyword.kind = .keyword .kwFun) (short : ts.length ≤ n)
    (rest : List Token) : Reads (p.lambda keyword.line) ts e rest := by
  cases phrase with
  | @lambda _ opening ps names bracket _ body _ before list after inner =>
    cases inner with
    | @mk brace us _ closing braceKind inner closingKind =>
      simp only [List.length_cons,List.length_append] at short
      have block := readsBlock complete inner (by omega) closingKind rest
      refine (readsExpect rfl before _).token ?_
      refine (readsParameters list after _).closed ?_
      exact (readsExpect rfl braceKind _).token (block.last (readsPure _ rest))
  | _ => simp_all

theorem readsPrimary (complete : p.IsComplete n) {ts : List Token} {e : Expr} (phrase : Primary ts e)
    (short : ts.length ≤ n + 1) (rest : List Token) : Reads p.primary ts e rest := by
  cases phrase with
  | number kind | string kind | true kind | false kind | nil kind | this kind | name kind =>
    refine readsPeek ?_
    simp only [kind]
    exact readsSkip (readsPure _ rest)
  | @grouping opening us inner closing before middle after =>
    simp only [List.length_cons,List.length_append] at short
    have read : Reads p.expression us inner ([closing] ++ rest) :=
      complete.expression middle (by omega) (stopsAt after rfl)
    refine readsPeek ?_
    simp only [before]
    refine readsSkip (readsBind us [closing] read ?_)
    exact (readsExpect rfl after rest).last (readsPure _ rest)
  | @lambda keyword _ _ _ _ _ _ start before list after inner =>
    refine readsPeek ?_
    simp only [start]
    exact readsSkip (readsLambda complete (.lambda start before list after inner) start
      (by simpa using short) rest)

theorem separatedOfExpressions : ∀ {ts es}, Expressions ts es → Separated Expression ts es
  | _,_,.last item => .last item
  | _,_,.more item divider tail => .more item divider (separatedOfExpressions tail)

theorem separatedStarts {ts es} (list : Separated Expression ts es) : Starts opensExpression ts := by
  cases list with
  | last item => exact expressionStarts item
  | more item => exact (expressionStarts item).append _

theorem readsArguments (complete : p.IsComplete n) {ts : List Token} {es : List Expr} {closing : Token}
    (list : Arguments ts es) (short : ts.length ≤ n) (kind : closing.kind = .symbol .rightParen)
    (rest : List Token) :
    Reads (bracketed p.expression .tooManyArguments .argumentsEnd) (ts ++ [closing]) (es,closing) rest := by
  cases list with
  | none => exact readsEmptyBrackets kind rest
  | some list few =>
    have separated := separatedOfExpressions list
    refine readsBracketed ?_ separated few ((separatedStarts separated).notKind rfl (by simp) _) short kind rest
    intro us x rest item short ends
    rcases ends with kind | kind
    · exact complete.expression item short (stopsAt kind rfl)
    · exact complete.expression item short (stopsAt kind rfl)

theorem readsCallTail (complete : p.IsComplete n) (bound : List Token) {rest : List Token}
    (stops : Stops 9 rest) {l : Expr} {ts : List Token} {e : Expr} (tail : CallTail l ts e)
    (short : ts.length ≤ n) (enough : ts.length ≤ bound.length) : Reads (grow p.suffix bound l) ts e rest := by
  induction bound generalizing l ts with
  | nil =>
    cases tail with
    | stop => exact readsPure _ rest
    | call => simp at enough
    | get => simp at enough
  | cons _ bound ih =>
    cases tail with
    | stop =>
      have nothing : Reads (p.suffix e) [] none rest := by
        refine readsPeekRest ?_
        split
        · rename_i kind
          exact absurd kind (stops.notKind (Nat.le_refl 9))
        · rename_i kind
          exact absurd kind (stops.notKind (Nat.le_refl 9))
        · exact readsPure none rest
      exact nothing.last (readsPure e rest)
    | @call _ opening args es closing more _ before list after tail =>
      simp only [List.length_cons,List.length_append] at short enough
      have once : Reads (p.suffix l) (opening :: (args ++ [closing])) (some (.call l es closing.line))
          (more ++ rest) := by
        refine readsPeek ?_
        simp only [before]
        exact readsSkip ((readsArguments complete list (by omega) after _).last (readsPure _ _))
      have later := ih tail (by omega) (by omega)
      rw [show opening :: (args ++ closing :: more) = (opening :: args) ++ closing :: more from rfl]
      exact Reads.closed once later
    | @get _ dot name more _ point property tail =>
      simp only [List.length_cons] at short enough
      have once : Reads (p.suffix l) [dot,name] (some (.get l (identOf name))) (more ++ rest) := by
        refine readsPeek ?_
        simp only [point]
        exact readsSkip ((readsIdent (.mk property) _).last (readsPure _ _))
      exact readsBind [dot,name] more once (ih tail (by omega) (by omega))

theorem readsCallRule (complete : p.IsComplete n) {ts : List Token} {e : Expr} (phrase : Call ts e)
    (short : ts.length ≤ n + 1) {rest : List Token} (stops : Stops 9 rest) : Reads p.callRule ts e rest := by
  cases phrase with
  | @mk first more l _ head tail =>
    have some : 0 < first.length := by cases primaryStarts head <;> simp
    simp only [List.length_append] at short
    refine readsBind first more (readsPrimary complete head (by omega) _) fun errors => ?_
    exact readsCallTail complete (more ++ rest) stops tail (by omega) (by simp) errors

theorem readsUnaryRule (complete : p.IsComplete n) {ts : List Token} {e : Expr} {rest : List Token}
    (phrase : Unary ts e) (short : ts.length ≤ n + 1) (stops : Stops 9 rest) : Reads p.unaryRule ts e rest := by
  cases phrase with
  | @operation sign op us e operator inner =>
    have found : UnaryOp.ofPrefix? sign.kind = some op := by
      simp only [prefixOperators,List.mem_cons,Prod.mk.injEq,List.not_mem_nil,or_false] at operator
      rcases operator with ⟨kind,rfl⟩ | ⟨kind,rfl⟩ <;> simp [kind,UnaryOp.ofPrefix?]
    refine (readsOperator found _).token ?_
    exact (complete.unary inner (by simpa using short) stops).last (readsPure _ rest)
  | call inner =>
    have noPrefix : UnaryOp.ofPrefix? (headKind (ts ++ rest)) = none := by
      unfold UnaryOp.ofPrefix?
      split
      · rename_i kind
        exact absurd kind ((callStarts inner).notKind rfl (by simp) rest)
      · rename_i kind
        exact absurd kind ((callStarts inner).notKind rfl (by simp) rest)
      · rfl
    exact readsBind [] ts (readsNoOperator noPrefix) (readsCallRule complete inner short stops)

theorem operandChain {level next : Level} {ts e} (tighter : level.tighter = some next)
    (operand : Operand level ts e) : Chain next ts e := by
  cases operand with
  | chain same inner =>
    cases tighter.symm.trans same
    exact inner
  | unary tightest => simp [tighter] at tightest

def ReadsLevel (n : Nat) (level : Level) (rule : Parser Expr) : Prop :=
  ∀ {ts e rest}, Chain level ts e → ts.length ≤ n → Stops level.tightness rest → Reads rule ts e rest

theorem readsLevel {level next : Level} {table : Kind → Option α} {build : Expr → α → Expr → Nat → Expr}
    {operand : Parser Expr} (tabled : Tabled level table build) (tighter : level.tighter = some next)
    (operands : ReadsLevel n next operand) : ReadsLevel n level (leftAssoc table build operand) := by
  intro ts e rest phrase short stops
  have one : next.tightness = level.tightness + 1 := by
    cases level <;> cases tighter <;> rfl
  refine readsLeftAssoc tabled (fun operand short stops => ?_) phrase short stops
  rw [← one] at stops
  exact operands (operandChain tighter operand) short stops

theorem readsFactorRule (complete : p.IsComplete n) : ReadsLevel (n + 1) .factor p.factorRule := by
  intro ts e rest phrase short stops
  refine readsLeftAssoc tabledFactor (fun operand short stops => ?_) phrase short stops
  cases operand with
  | chain tighter => cases tighter
  | unary _ inner => exact readsUnaryRule complete inner short stops

theorem readsTermRule (complete : p.IsComplete n) : ReadsLevel (n + 1) .term p.termRule :=
  readsLevel tabledTerm rfl (readsFactorRule complete)

theorem readsComparisonRule (complete : p.IsComplete n) : ReadsLevel (n + 1) .comparison p.comparisonRule :=
  readsLevel tabledComparison rfl (readsTermRule complete)

theorem readsEqualityRule (complete : p.IsComplete n) : ReadsLevel (n + 1) .equality p.equalityRule :=
  readsLevel tabledEquality rfl (readsComparisonRule complete)

theorem readsAndRule (complete : p.IsComplete n) : ReadsLevel (n + 1) .and p.andRule :=
  readsLevel tabledAnd rfl (readsEqualityRule complete)

theorem readsOrRule (complete : p.IsComplete n) : ReadsLevel (n + 1) .or p.orRule :=
  readsLevel tabledOr rfl (readsAndRule complete)

theorem readsTernaryRule (complete : p.IsComplete n) {ts : List Token} {e : Expr} {rest : List Token}
    (phrase : Ternary ts e) (short : ts.length ≤ n + 1) (stops : Stops 2 rest) :
    Reads p.ternaryRule ts e rest := by
  cases phrase with
  | plain inner =>
    have noQuestion : Reads (accept (.symbol .question)) [] none rest :=
      readsNoAccept rfl (stops.notKind (Nat.le_refl 2))
    exact (readsOrRule complete inner short (stops.mono (by decide))).last (noQuestion.last (readsPure e rest))
  | @choice condition question thens colon elses c t f test mark first divider second =>
    simp only [List.length_append,List.length_cons] at short
    have testRead : Reads p.orRule condition c (question :: (thens ++ colon :: elses) ++ rest) :=
      readsOrRule complete test (by omega) (by simp [Stops,mark,Grammar.tightness,Level.tightness])
    have firstRead : Reads p.expression thens t (colon :: elses ++ rest) :=
      complete.expression first (by omega) (stopsAt divider rfl)
    have secondRead : Reads p.ternary elses f rest := complete.ternary second (by omega) stops
    refine readsBind condition _ testRead ?_
    refine (readsAccept rfl mark _).token ?_
    refine readsBind thens _ firstRead ?_
    exact (readsExpect rfl divider _).token (secondRead.last (readsPure _ rest))

theorem chainOfOperand {level ts e} (operand : Operand level ts e) : Chain level ts e := by
  simpa using Chain.mk operand .stop

theorem ternaryOfCall {ts e} (phrase : Call ts e) : Ternary ts e := by
  have factor : Chain .factor ts e := chainOfOperand (.unary rfl (.call phrase))
  have term : Chain .term ts e := chainOfOperand (.chain rfl factor)
  have comparison : Chain .comparison ts e := chainOfOperand (.chain rfl term)
  have equality : Chain .equality ts e := chainOfOperand (.chain rfl comparison)
  have and : Chain .and ts e := chainOfOperand (.chain rfl equality)
  exact .plain (chainOfOperand (.chain rfl and))

/- An assignment is read as a ternary first, which stops before the `=`. -/
theorem readsTarget (complete : p.IsComplete n) {ts : List Token} {e : Expr} {equal : Token} {us : List Token}
    (phrase : Call ts e) (sign : equal.kind = .symbol .equal) (short : ts.length ≤ n + 1) :
    Reads p.ternaryRule ts e (equal :: us) :=
  readsTernaryRule complete (ternaryOfCall phrase) short (by simp [Stops,sign,Grammar.tightness])

theorem readsExpressionRule (complete : p.IsComplete n) {ts : List Token} {e : Expr} {rest : List Token}
    (phrase : Expression ts e) (short : ts.length ≤ n + 1) (stops : Stops 1 rest) :
    Reads p.expressionRule ts e rest := by
  cases phrase with
  | ternary inner =>
    have noEqual : Reads (accept (.symbol .equal)) [] none rest :=
      readsNoAccept rfl (stops.notKind (Nat.le_refl 1))
    exact (readsTernaryRule complete inner short (stops.mono (by omega))).last (noEqual.last (readsPure e rest))
  | @assign name equal us value target sign source =>
    simp only [List.length_cons] at short
    have assigned : Call [name] (.var (identOf name) none) := .mk (.name target) .stop
    have valueRead := complete.expression source (by omega) stops
    refine readsBind [name] (equal :: us) (readsTarget complete assigned sign (by simp)) ?_
    exact (readsAccept rfl sign _).token (valueRead.last (readsPure _ rest))
  | @set object dot name equal us e value receiver point target sign source =>
    simp only [List.length_append,List.length_cons] at short
    have property : Call (object ++ [dot,name]) (.get e (identOf name)) := by
      cases receiver with
      | mk head tail =>
        rw [List.append_assoc]
        exact .mk head (callTailAppend tail (.get point target .stop))
    have valueRead := complete.expression source (by omega) stops
    rw [show object ++ dot :: name :: equal :: us = (object ++ [dot,name]) ++ equal :: us by simp]
    have few : (object ++ [dot,name]).length ≤ n + 1 := by
      simp only [List.length_append,List.length_cons,List.length_nil]
      omega
    refine readsBind (object ++ [dot,name]) (equal :: us) (readsTarget complete property sign few) ?_
    exact (readsAccept rfl sign _).token (valueRead.last (readsPure _ rest))

theorem readsExpressionStatement (complete : p.IsComplete n) {ts : List Token} {s : Stmt}
    (phrase : ExpressionStatement ts s) (short : ts.length ≤ n + 1) (rest : List Token) :
    Reads p.expressionStatement ts s rest := by
  cases phrase with
  | @mk us e semicolon inner after =>
    simp only [List.length_append] at short
    refine readsBind us [semicolon] (readsExpressionRule complete inner (by omega) (stopsAt after rfl)) ?_
    exact (readsExpect rfl after rest).last (readsPure _ rest)

theorem readsVarDeclaration (complete : p.IsComplete n) {keyword : Token} {ts : List Token} {s : Stmt}
    (phrase : VarDecl (keyword :: ts) s) (short : ts.length ≤ n) (rest : List Token) :
    Reads p.varDeclaration ts s rest := by
  cases phrase with
  | @bare _ name semicolon _ title after =>
    have noEqual : Reads (accept (.symbol .equal)) [] none ([semicolon] ++ rest) :=
      readsNoAccept rfl (by simp [after])
    refine readsBind [name] [semicolon] (readsIdent (.mk title) _) ?_
    refine readsBind [] [semicolon] noEqual ?_
    exact (readsExpect rfl after rest).last (readsPure _ rest)
  | @initialized _ name equal us e semicolon _ title sign inner after =>
    simp only [List.length_cons,List.length_append] at short
    have read : Reads p.expression us e ([semicolon] ++ rest) :=
      complete.expression inner (by omega) (stopsAt after rfl)
    have some : Reads (some <$> p.expression) us (some e) ([semicolon] ++ rest) := by
      rw [map_eq_pure_bind]
      exact read.last (readsPure _ _)
    refine readsBind [name] (equal :: (us ++ [semicolon])) (readsIdent (.mk title) _) ?_
    refine (readsAccept rfl sign _).token ?_
    refine readsBind us [semicolon] some ?_
    exact (readsExpect rfl after rest).last (readsPure _ rest)

theorem readsOptionalExpression (complete : p.IsComplete n) {k : Kind} (mark : k.isMark)
    (closed : opensExpression k = false) (noFun : k ≠ .keyword .kwFun) (loose : Grammar.tightness k = 0)
    {ts : List Token} {e : Option Expr} {rest : List Token} (phrase : OptionalExpression ts e)
    (short : ts.length ≤ n) (ends : headKind rest = k) : Reads (p.optionalExpression k) ts e rest := by
  refine readsCheck ?_
  cases phrase with
  | none =>
    rw [show (headKind ([] ++ rest)).agrees k = true from (Kind.agreesMark mark).mpr ends]
    exact readsPure none rest
  | some inner =>
    rw [notAgrees mark ((expressionStarts inner).notKind closed noFun rest)]
    exact (complete.expression inner short (stopsAt ends loose)).last (readsPure _ rest)

theorem readsForInitializer (complete : p.IsComplete n) {ts : List Token} {s : Option Stmt}
    (phrase : ForInitializer ts s) (short : ts.length ≤ n + 1) (rest : List Token) :
    Reads p.forInitializer ts s rest := by
  cases phrase with
  | none kind =>
    refine readsPeek ?_
    simp only [kind]
    exact readsSkip (readsPure none rest)
  | varDecl inner =>
    have start : ∃ keyword us, ts = keyword :: us ∧ keyword.kind = .keyword .kwVar := by
      cases inner with
      | bare start | initialized start => exact ⟨_,_,rfl,start⟩
    obtain ⟨keyword,us,rfl,start⟩ := start
    refine readsPeek ?_
    simp only [start]
    exact readsSkip ((readsVarDeclaration complete inner (by simpa using short) rest).last (readsPure _ rest))
  | expression inner =>
    have starts := expressionStatementStarts inner
    have read := readsExpressionStatement complete inner short rest
    obtain ⟨t,us,rfl⟩ : ∃ t us, ts = t :: us := by cases starts <;> exact ⟨_,_,rfl⟩
    refine readsPeek ?_
    split
    · rename_i kind
      exact absurd kind (starts.notKind rfl (by simp) [])
    · rename_i kind
      exact absurd kind (starts.notKind rfl (by simp) [])
    · exact read.last (readsPure _ rest)

theorem readsForStatement (complete : p.IsComplete n) {line : Nat} {short : Bool}
    {opening semicolon closing : Token} {init condition step ts rest : List Token} {i : Option Stmt}
    {c m : Option Expr} {s : Stmt} (before : opening.kind = .symbol .leftParen) (first : ForInitializer init i)
    (test : OptionalExpression condition c) (divider : semicolon.kind = .symbol .semicolon)
    (increment : OptionalExpression step m) (after : closing.kind = .symbol .rightParen)
    (body : Statement short ts s)
    (few : (opening :: (init ++ (condition ++ semicolon :: (step ++ closing :: ts)))).length ≤ n)
    (ends : short = true → headKind rest ≠ .keyword .kwElse) :
    Reads (p.forStatement line) (opening :: (init ++ (condition ++ semicolon :: (step ++ closing :: ts))))
      (forTree line c s i m) rest := by
  simp only [List.length_cons,List.length_append] at few
  have firstRead := readsForInitializer complete first (by omega)
  have testRead : Reads (p.optionalExpression (.symbol .semicolon)) condition c
      (semicolon :: (step ++ closing :: ts) ++ rest) :=
    readsOptionalExpression complete rfl rfl (by simp) rfl test (by omega) divider
  have stepRead : Reads (p.optionalExpression (.symbol .rightParen)) step m (closing :: ts ++ rest) :=
    readsOptionalExpression complete rfl rfl (by simp) rfl increment (by omega) after
  have bodyRead := complete.statement body (by omega) ends
  rw [← forLoopTree]
  refine (readsExpect rfl before _).token ?_
  refine readsBind init _ (firstRead _) ?_
  refine readsBind condition _ testRead ?_
  refine (readsExpect rfl divider _).token ?_
  refine readsBind step _ stepRead ?_
  refine (readsExpect rfl after _).token ?_
  exact bodyRead.last (readsPure _ rest)

theorem readsWhileStatement (complete : p.IsComplete n) {short : Bool} {opening closing : Token}
    {condition ts rest : List Token} {c : Expr} {s : Stmt} (before : opening.kind = .symbol .leftParen)
    (test : Expression condition c) (after : closing.kind = .symbol .rightParen) (body : Statement short ts s)
    (few : (opening :: (condition ++ closing :: ts)).length ≤ n)
    (ends : short = true → headKind rest ≠ .keyword .kwElse) :
    Reads p.whileStatement (opening :: (condition ++ closing :: ts)) (.whileLoop c s) rest := by
  simp only [List.length_cons,List.length_append] at few
  have testRead : Reads p.expression condition c (closing :: ts ++ rest) :=
    complete.expression test (by omega) (stopsAt after rfl)
  have bodyRead := complete.statement body (by omega) ends
  refine (readsExpect rfl before _).token ?_
  refine readsBind condition _ testRead ?_
  exact (readsExpect rfl after _).token (bodyRead.last (readsPure _ rest))

theorem readsIfOnly (complete : p.IsComplete n) {short : Bool} {opening closing : Token}
    {condition ts rest : List Token} {c : Expr} {s : Stmt} (before : opening.kind = .symbol .leftParen)
    (test : Expression condition c) (after : closing.kind = .symbol .rightParen) (first : Statement short ts s)
    (few : (opening :: (condition ++ closing :: ts)).length ≤ n) (noElse : headKind rest ≠ .keyword .kwElse) :
    Reads p.ifStatement (opening :: (condition ++ closing :: ts)) (.ifElse c s none) rest := by
  simp only [List.length_cons,List.length_append] at few
  have testRead : Reads p.expression condition c (closing :: ts ++ rest) :=
    complete.expression test (by omega) (stopsAt after rfl)
  have firstRead := complete.statement first (by omega) fun _ => noElse
  refine (readsExpect rfl before _).token ?_
  refine readsBind condition _ testRead ?_
  refine (readsExpect rfl after _).token ?_
  exact firstRead.last ((readsNoAccept rfl noElse).last (readsPure _ rest))

theorem readsIfElse (complete : p.IsComplete n) {short : Bool} {opening closing other : Token}
    {condition ts elses rest : List Token} {c : Expr} {s t : Stmt} (before : opening.kind = .symbol .leftParen)
    (test : Expression condition c) (after : closing.kind = .symbol .rightParen) (first : Statement false ts s)
    (divider : other.kind = .keyword .kwElse) (second : Statement short elses t)
    (few : (opening :: (condition ++ closing :: (ts ++ other :: elses))).length ≤ n)
    (ends : short = true → headKind rest ≠ .keyword .kwElse) :
    Reads p.ifStatement (opening :: (condition ++ closing :: (ts ++ other :: elses))) (.ifElse c s (some t))
      rest := by
  simp only [List.length_cons,List.length_append] at few
  have testRead : Reads p.expression condition c (closing :: (ts ++ other :: elses) ++ rest) :=
    complete.expression test (by omega) (stopsAt after rfl)
  have firstRead : Reads p.statement ts s (other :: elses ++ rest) :=
    complete.statement first (by omega) (by simp)
  have secondRead : Reads (some <$> p.statement) elses (some t) rest := by
    rw [map_eq_pure_bind]
    exact (complete.statement second (by omega) ends).last (readsPure _ rest)
  refine (readsExpect rfl before _).token ?_
  refine readsBind condition _ testRead ?_
  refine (readsExpect rfl after _).token ?_
  refine readsBind ts _ firstRead ?_
  exact (readsAccept rfl divider _).token (secondRead.last (readsPure _ rest))

theorem statementRuleExpression {t : Token} {ts : List Token} {s : Stmt} {rest : List Token}
    (starts : opensExpression t.kind = true) (read : Reads p.expressionStatement (t :: ts) s rest) :
    Reads p.statementRule (t :: ts) s rest := by
  refine readsPeek ?_
  split <;> simp_all [opensExpression,opensCall]

theorem Starts.opens {opens ts} (start : Starts opens ts) (lambda : opens (.keyword .kwFun) = true) :
    ∃ t us, ts = t :: us ∧ opens t.kind = true := by
  cases start with
  | plain kind => exact ⟨_,_,rfl,kind⟩
  | lambda kind => exact ⟨_,_,rfl,kind ▸ lambda⟩

theorem readsStatementRule (complete : p.IsComplete n) {short : Bool} {ts : List Token} {s : Stmt}
    {rest : List Token} (phrase : Statement short ts s) (few : ts.length ≤ n + 1)
    (ends : short = true → headKind rest ≠ .keyword .kwElse) : Reads p.statementRule ts s rest := by
  cases phrase with
  | expression inner =>
    obtain ⟨t,us,rfl,kind⟩ := Starts.opens (expressionStatementStarts inner) rfl
    exact statementRuleExpression kind (readsExpressionStatement complete inner few rest)
  | @print keyword us e semicolon start inner after =>
    simp only [List.length_cons,List.length_append] at few
    have read : Reads p.expression us e ([semicolon] ++ rest) :=
      complete.expression inner (by omega) (stopsAt after rfl)
    refine readsPeek ?_
    simp only [start]
    refine readsSkip (readsBind us [semicolon] read ?_)
    exact (readsExpect rfl after rest).last (readsPure _ rest)
  | @returned keyword us value semicolon start inner after =>
    simp only [List.length_cons,List.length_append] at few
    have read : Reads (p.optionalExpression (.symbol .semicolon)) us value ([semicolon] ++ rest) :=
      readsOptionalExpression complete rfl rfl (by simp) rfl inner (by omega) after
    refine readsPeek ?_
    simp only [start]
    refine readsSkip (readsBind us [semicolon] read ?_)
    exact (readsExpect rfl after rest).last (readsPure _ rest)
  | block inner =>
    cases inner with
    | mk before inner after =>
      simp only [List.length_cons,List.length_append] at few
      refine readsPeek ?_
      simp only [before]
      exact readsSkip ((readsBlock complete inner (by omega) after rest).last (readsPure _ rest))
  | whileLoop start before test after body =>
    refine readsPeek ?_
    simp only [start]
    exact readsSkip (readsWhileStatement complete before test after body (by simpa using few) ends)
  | ifOnly start before test after first =>
    refine readsPeek ?_
    simp only [start]
    exact readsSkip (readsIfOnly complete before test after first (by simpa using few) (ends rfl))
  | ifElse start before test after first divider second =>
    refine readsPeek ?_
    simp only [start]
    exact readsSkip (readsIfElse complete before test after first divider second (by simpa using few) ends)
  | forLoop start before first test divider increment after body =>
    refine readsPeek ?_
    simp only [start]
    exact readsSkip (readsForStatement complete before first test divider increment after body
      (by simpa using few) ends)

theorem readsFunction (complete : p.IsComplete n) {role : FunctionRole} {ts : List Token} {decl : FunctionDecl}
    (phrase : Function ts decl) (few : ts.length ≤ n + 1) (rest : List Token) :
    Reads (p.function role) ts decl rest := by
  cases phrase with
  | mk title before list after inner =>
    cases inner with
    | mk braceKind inner closingKind =>
      simp only [List.length_cons,List.length_append] at few
      have block := readsBlock complete inner (by omega) closingKind rest
      refine (readsIdent (.mk title) _).token ?_
      refine (readsExpect rfl before _).token ?_
      refine (readsParameters list after _).closed ?_
      exact (readsExpect rfl braceKind _).token (block.last (readsPure _ rest))

theorem functionStarts {ts decl} (phrase : Function ts decl) (us : List Token) :
    headKind (ts ++ us) = .identifier ∧ ts ≠ [] := by
  cases phrase with
  | mk title => exact ⟨title,by simp⟩

def FlaggedMember (ts : List Token) (member : Bool × FunctionDecl) : Prop := Member ts (some member)

theorem readsMethod (complete : p.IsComplete n) {ts : List Token} {member : Bool × FunctionDecl}
    (phrase : FlaggedMember ts member) (few : ts.length ≤ n) (rest : List Token) :
    Reads p.method ts (some member) rest := by
  cases phrase with
  | method inner =>
    have noClass : Reads (accept (.keyword .kwClass)) [] none (ts ++ rest) :=
      readsNoAccept rfl (by simp [(functionStarts inner rest).1])
    refine readsBind [] ts noClass ?_
    exact (readsFunction complete inner (by omega) rest).last (readsPure _ rest)
  | classMethod start inner =>
    simp only [List.length_cons] at few
    refine (readsAccept rfl start _).token ?_
    exact (readsFunction complete inner (by omega) rest).last (readsPure _ rest)

theorem sequenceOfMembers : ∀ {ts methods classMethods}, Members ts methods classMethods →
    ∃ members, Sequence FlaggedMember ts members ∧ (members.filter (fun m => !m.1)).map (·.2) = methods ∧
      (members.filter (fun m => m.1)).map (·.2) = classMethods
  | _,_,_,.none => ⟨[],.none,rfl,rfl⟩
  | _,_,_,.method head tail => by
    obtain ⟨members,list,rfl,rfl⟩ := sequenceOfMembers tail
    exact ⟨(false,_) :: members,.more (.method head) list,by simp,by simp⟩
  | _,_,_,.classMethod start head tail => by
    obtain ⟨members,list,rfl,rfl⟩ := sequenceOfMembers tail
    exact ⟨(true,_) :: members,.more (.classMethod start head) list,by simp,by simp⟩

theorem readsMembers (complete : p.IsComplete n) {opening closing : Token} {ts : List Token}
    {members : List (Bool × FunctionDecl)} (before : opening.kind = .symbol .leftBrace)
    (list : Sequence FlaggedMember ts members) (few : ts.length ≤ n) (after : closing.kind = .symbol .rightBrace)
    (rest : List Token) : Reads p.members (opening :: (ts ++ [closing])) members rest := by
  have starts {us member} (phrase : FlaggedMember us member) (vs : List Token) :
      Reads atBlockEnd [] false (us ++ vs) ∧ headKind (us ++ vs) ≠ .keyword .kwElse ∧ us ≠ [] := by
    cases phrase with
    | method inner =>
      obtain ⟨kind,some⟩ := functionStarts inner vs
      exact ⟨readsAtBlockEnd (by simp [kind,Kind.agrees]),by simp [kind],some⟩
    | classMethod start => exact ⟨readsAtBlockEnd (by simp [start,Kind.agrees]),by simp [start],by simp⟩
  have stops : Reads atBlockEnd [] true ([closing] ++ rest) := readsAtBlockEnd (by simp [after,Kind.agrees])
  have body : Reads (collecting atBlockEnd p.method) ts members ([closing] ++ rest) := fun errors =>
    readsCollect starts (fun phrase few _ => readsMethod complete phrase few _) stops (by simp [after]) list few
      (by simp) errors
  refine (readsExpect rfl before _).token ?_
  refine readsBind ts [closing] body ?_
  exact (readsExpect rfl after rest).last (readsPure _ rest)

theorem readsSuperclass {ts : List Token} {parent : Option Expr} (phrase : Superclass ts parent)
    {rest : List Token} (ends : headKind rest = .symbol .leftBrace) : Reads superclass ts parent rest := by
  cases phrase with
  | none => exact (readsNoAccept rfl (by simp [ends])).last (readsPure none rest)
  | some sign title =>
    exact (readsAccept rfl sign _).token ((readsIdent (.mk title) rest).last (readsPure _ rest))

theorem readsClassDeclaration (complete : p.IsComplete n) {name opening closing : Token}
    {ps ts : List Token} {parent : Option Expr} {methods classMethods : List FunctionDecl}
    (title : name.kind = .identifier) (superclass : Superclass ps parent)
    (before : opening.kind = .symbol .leftBrace) (inner : Members ts methods classMethods)
    (after : closing.kind = .symbol .rightBrace) (few : ts.length ≤ n) (rest : List Token) :
    Reads p.classDeclaration (name :: (ps ++ opening :: (ts ++ [closing])))
      (.classDecl ⟨identOf name,parent,methods,classMethods⟩) rest := by
  obtain ⟨members,list,rfl,rfl⟩ := sequenceOfMembers inner
  have body := readsMembers complete before list few after rest
  refine (readsIdent (.mk title) _).token ?_
  refine readsBind ps _ (readsSuperclass superclass before) ?_
  exact body.last (readsPure _ rest)

theorem plainDeclarationStatement {ts : List Token} {s : Stmt} {rest : List Token}
    (starts : Starts opensStatement ts) (read : Reads p.statementRule ts s rest) :
    Reads p.plainDeclaration ts s rest := by
  cases starts with
  | @plain t us kind noFun =>
    refine readsPeek ?_
    split
    · simp_all [opensStatement,opensExpression,opensCall]
    · simp_all
    · simp_all [opensStatement,opensExpression,opensCall]
    · exact read
  | @lambda t u us kind bracket =>
    refine readsPeek ?_
    simp only [kind]
    intro errors
    change (if u.kind.agrees .identifier then _ else _ : Parser Stmt) _ = _
    rw [if_neg (by simp [bracket,Kind.agrees])]
    exact read errors

theorem readsPlainDeclaration (complete : p.IsComplete n) {ts : List Token} {s : Stmt} {rest : List Token}
    (phrase : Declaration ts s) (few : ts.length ≤ n + 1) (ends : headKind rest ≠ .keyword .kwElse) :
    Reads p.plainDeclaration ts s rest := by
  cases phrase with
  | classDecl start title before inner after =>
    simp only [List.length_cons,List.length_append] at few
    refine readsPeek ?_
    simp only [start]
    exact readsSkip (readsClassDeclaration complete title .none before inner after (by omega) rest)
  | subclass start title sign superclass before inner after =>
    simp only [List.length_cons,List.length_append] at few
    refine readsPeek ?_
    simp only [start]
    exact readsSkip (readsClassDeclaration complete title (.some sign superclass) before inner after (by omega) rest)
  | @funDecl keyword us decl start inner =>
    have second : (headKind (us ++ rest)).agrees .identifier = true := by
      rw [(functionStarts inner rest).1]
      rfl
    have read : Reads (p.function .function) us decl rest :=
      readsFunction complete inner (Nat.le_succ_of_le (by simpa using few)) rest
    refine readsPeek ?_
    simp only [start]
    intro errors
    change (if (headKind (us ++ rest)).agrees .identifier then _ else _ : Parser Stmt) _ = _
    rw [if_pos second]
    exact bindOk (read errors)
  | varDecl inner =>
    have start : ∃ keyword us, ts = keyword :: us ∧ keyword.kind = .keyword .kwVar := by
      cases inner with
      | bare start | initialized start => exact ⟨_,_,rfl,start⟩
    obtain ⟨keyword,us,rfl,start⟩ := start
    refine readsPeek ?_
    simp only [start]
    exact readsSkip (readsVarDeclaration complete inner (by simpa using few) rest)
  | statement inner =>
    exact plainDeclarationStatement (statementStarts inner) (readsStatementRule complete inner few fun _ => ends)

theorem completeNext (complete : p.IsComplete n) : p.next.IsComplete (n + 1) where
  expression := readsExpressionRule complete
  ternary := readsTernaryRule complete
  unary := readsUnaryRule complete
  statement := readsStatementRule complete
  declaration phrase few ends := by
    intro errors
    change p.declarationRule _ = _
    simp only [declarationRule,readsPlainDeclaration complete phrase few ends errors]

theorem Starts.notEmpty {opens ts} (start : Starts opens ts) : ¬ ts.length ≤ 0 := by
  cases start <;> simp

theorem completeEmpty : empty.IsComplete 0 where
  expression phrase none := absurd none (Starts.notEmpty (expressionStarts phrase))
  ternary phrase none := absurd none (Starts.notEmpty (ternaryStarts phrase))
  unary phrase none := absurd none (Starts.notEmpty (unaryStarts phrase))
  statement phrase none := absurd none (Starts.notEmpty (statementStarts phrase))
  declaration phrase none := absurd (List.eq_nil_of_length_eq_zero (Nat.le_zero.mp none)) (declarationNotEmpty phrase)

theorem completeUpTo (n : Nat) : (upTo n).IsComplete n := by
  induction n with
  | zero => exact completeEmpty
  | succ n ih => exact completeNext ih

end Phrases

open Grammar Treewalk.Parser Phrases

theorem programComplete {tokens : List Token} {ast : List Stmt} (phrase : Grammar.Program tokens ast) :
    parseProgram tokens = .ok ast := by
  cases phrase with
  | @mk ts _ last inner after =>
    have complete := completeUpTo (ts ++ [last]).length
    have starts {us s} (phrase : Declaration us s) (vs : List Token) :
        Reads atEnd [] false (us ++ vs) ∧ headKind (us ++ vs) ≠ .keyword .kwElse ∧ us ≠ [] :=
      ⟨readsAtEnd (notEnd (declarationNotKind phrase vs rfl)),declarationNotKind phrase vs rfl,
        declarationNotEmpty phrase⟩
    have stops : Reads atEnd [] true [last] := readsAtEnd (by simp [after,Kind.agrees])
    have list : collecting atEnd (upTo (ts ++ [last]).length).declaration ⟨ts ++ [last],[]⟩ =
        .ok ast ⟨[last],[]⟩ :=
      readsCollect starts complete.declaration stops (by simp [after]) (sequenceOfDeclarations inner) (by simp)
        (by simp) []
    unfold parseProgram
    rw [list]
    rfl

theorem expressionComplete {tokens : List Token} {e : Expr} (phrase : Grammar.WholeExpression tokens e) :
    parseExpression tokens = .ok e ∧ recoveredErrors tokens = [] := by
  cases phrase with
  | @mk ts _ last inner after =>
    have complete := completeUpTo (ts ++ [last]).length
    have stops : Reads atEnd [] true [last] := readsAtEnd (by simp [after,Kind.agrees])
    have loose : Stops 1 [last] := stopsAt (headKindCons last [] |>.trans after) rfl
    have read : Reads (wholeExpression (upTo (ts ++ [last]).length)) ts e [last] :=
      (complete.expression inner (by simp) loose).last (stops.last (readsPure e [last]))
    unfold parseExpression recoveredErrors
    rw [read []]
    exact ⟨rfl,rfl⟩

end Treewalk
