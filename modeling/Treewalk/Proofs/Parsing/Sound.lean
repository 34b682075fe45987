import Treewalk.Proofs.Parsing

/-! What the rules of the parser accept without an error is a phrase of the grammar. A rule is treated for any
inner phrases that are sound, and the rules together by induction on the depth of the knot. -/
namespace Treewalk
namespace Grammar

theorem chainTailAppend : ∀ {level l ts m us e}, ChainTail level l ts m → ChainTail level m us e →
    ChainTail level l (ts ++ us) e
  | _,_,_,_,_,_,.stop,second => second
  | _,_,_,_,_,_,.step sign operand tail,second => by
    simpa using ChainTail.step sign operand (chainTailAppend tail second)

theorem callTailAppend : ∀ {l ts m us e}, CallTail l ts m → CallTail m us e → CallTail l (ts ++ us) e
  | _,_,_,_,_,.stop,second => second
  | _,_,_,_,_,.call before list after tail,second => by
    simpa using CallTail.call before list after (callTailAppend tail second)
  | _,_,_,_,_,.get point property tail,second => by
    simpa using CallTail.get point property (callTailAppend tail second)

theorem expressionsOfSeparated {ts es} (list : Separated Expression ts es) : Expressions ts es := by
  induction list with
  | last item => exact .last item
  | more item divider tail ih => exact .more item divider ih

/- The expressions that can be assigned to. They are calls: no operator makes one. -/
def isTarget : Expr → Bool
  | .var _ _ | .get _ _ => true
  | _ => false

theorem operatorNotTarget (level : Level) (l r : Expr) (line : Nat) :
    ∀ operator ∈ level.operators, isTarget (operator.2 l r line) = false := by
  cases level <;> simp [Level.operators,isTarget]

theorem chainTailTarget : ∀ {level l ts e}, ChainTail level l ts e → isTarget e → ts = [] ∧ l = e
  | _,_,_,_,.stop,_ => ⟨rfl,rfl⟩
  | _,_,_,_,.step sign _ tail,target => by
    obtain ⟨_,rfl⟩ := chainTailTarget tail target
    simp [operatorNotTarget _ _ _ _ _ sign] at target

mutual

theorem chainTarget : ∀ {level ts e}, Chain level ts e → isTarget e → Call ts e
  | _,_,_,.mk head tail,target => by
    obtain ⟨rfl,rfl⟩ := chainTailTarget tail target
    simpa using operandTarget head target

theorem operandTarget : ∀ {level ts e}, Operand level ts e → isTarget e → Call ts e
  | _,_,_,.chain _ inner,target => chainTarget inner target
  | _,_,_,.unary _ (.call inner),_ => inner

end

theorem ternaryTarget {ts e} (phrase : Ternary ts e) (target : isTarget e) : Call ts e := by
  cases phrase with
  | plain inner => exact chainTarget inner target
  | choice => simp [isTarget] at target

theorem callTailLast : ∀ {l ts e}, CallTail l ts e →
    (ts = [] ∧ l = e) ∨ (∃ callee es line, e = .call callee es line) ∨
      ∃ us dot t object, ts = us ++ [dot,t] ∧ dot.kind = .symbol .dot ∧ t.kind = .identifier ∧
        e = .get object (identOf t) ∧ CallTail l us object
  | _,_,_,.stop => .inl ⟨rfl,rfl⟩
  | _,_,_,@CallTail.call _ opening args _ closing _ _ before list after tail => by
    rcases callTailLast tail with ⟨_,rfl⟩ | called | ⟨us,dot,t,object,rfl,point,kind,rfl,rest⟩
    · exact .inr (.inl ⟨_,_,_,rfl⟩)
    · exact .inr (.inl called)
    · exact .inr (.inr ⟨opening :: (args ++ closing :: us),dot,t,object,by simp,point,kind,rfl,
        .call before list after rest⟩)
  | _,_,_,@CallTail.get _ dot name _ _ point property tail => by
    rcases callTailLast tail with ⟨rfl,rfl⟩ | called | ⟨us,dot',t,object,rfl,point',kind,rfl,rest⟩
    · exact .inr (.inr ⟨[],dot,name,_,rfl,point,property,rfl,.stop⟩)
    · exact .inr (.inl called)
    · exact .inr (.inr ⟨dot :: name :: us,dot',t,object,by simp,point',kind,rfl,.get point property rest⟩)

theorem callVar {ts name depth} (phrase : Call ts (.var name depth)) :
    ∃ t, ts = [t] ∧ t.kind = .identifier ∧ name = identOf t := by
  cases phrase with
  | mk head tail =>
    rcases callTailLast tail with ⟨rfl,rfl⟩ | ⟨_,_,_,other⟩ | ⟨_,_,_,_,_,_,_,other,_⟩
    · cases head with
      | @name t kind => exact ⟨t,rfl,kind,rfl⟩
    · cases other
    · cases other

theorem callGet {ts object name} (phrase : Call ts (.get object name)) :
    ∃ us dot t, ts = us ++ [dot,t] ∧ Call us object ∧ dot.kind = .symbol .dot ∧ t.kind = .identifier ∧
      name = identOf t := by
  cases phrase with
  | @mk first _ _ _ head tail =>
    rcases callTailLast tail with ⟨rfl,rfl⟩ | ⟨_,_,_,other⟩ | ⟨us,dot,t,_,rfl,point,kind,same,rest⟩
    · cases head
    · cases other
    · cases same
      exact ⟨first ++ us,dot,t,by simp,.mk head rest,point,kind,rfl⟩

inductive Recovered : List Token → Option Stmt → Prop where
  | declaration {ts s} (inner : Declaration ts s) : Recovered ts (some s)
  | nothing : Recovered [] none

/- A statement that may be extended by an `else` is not followed by one. -/
def StatementSpan (before : List Token) (s : Stmt) (after : List Token) : Prop :=
  ∃ short ts, before = ts ++ after ∧ Statement short ts s ∧
    (short = true → (after.headD Token.missingEnd).kind ≠ .keyword .kwElse)

structure Tabled (level : Level) (table : Kind → Option α) (build : Expr → α → Expr → Nat → Expr) : Prop where
  found : ∀ operator ∈ level.operators,
    ∃ op, table operator.1 = some op ∧ operator.2 = fun l r line => build l op r line
  listed : ∀ k op, table k = some op → (k,fun l r line => build l op r line) ∈ level.operators

theorem Tabled.noEnd {level : Level} {table : Kind → Option α} {build : Expr → α → Expr → Nat → Expr}
    (tabled : Tabled level table build) : table .eof = none := by
  cases found : table .eof with
  | none => rfl
  | some op =>
    have listed := tabled.listed .eof op found
    cases level <;> simp [Level.operators] at listed

theorem tabledFactor : Tabled .factor BinaryOp.ofFactor? .binary where
  found := by simp [Level.operators,BinaryOp.ofFactor?]
  listed k op found := by
    unfold BinaryOp.ofFactor? at found
    split at found <;> simp_all [Level.operators]

theorem tabledTerm : Tabled .term BinaryOp.ofTerm? .binary where
  found := by simp [Level.operators,BinaryOp.ofTerm?]
  listed k op found := by
    unfold BinaryOp.ofTerm? at found
    split at found <;> simp_all [Level.operators]

theorem tabledComparison : Tabled .comparison BinaryOp.ofComparison? .binary where
  found := by simp [Level.operators,BinaryOp.ofComparison?]
  listed k op found := by
    unfold BinaryOp.ofComparison? at found
    split at found <;> simp_all [Level.operators]

theorem tabledEquality : Tabled .equality BinaryOp.ofEquality? .binary where
  found := by simp [Level.operators,BinaryOp.ofEquality?]
  listed k op found := by
    unfold BinaryOp.ofEquality? at found
    split at found <;> simp_all [Level.operators]

theorem tabledAnd : Tabled .and LogicalOp.ofAnd? .logical where
  found := by simp [Level.operators,LogicalOp.ofAnd?]
  listed k op found := by
    unfold LogicalOp.ofAnd? at found
    split at found <;> simp_all [Level.operators]

theorem tabledOr : Tabled .or LogicalOp.ofOr? .logical where
  found := by simp [Level.operators,LogicalOp.ofOr?]
  listed k op found := by
    unfold LogicalOp.ofOr? at found
    split at found <;> simp_all [Level.operators]

end Grammar

namespace Phrases
open Grammar Treewalk.Parser

structure IsSound (p : Phrases) : Prop where
  expression : Sound p.expression (Span Expression)
  ternary : Sound p.ternary (Span Ternary)
  unary : Sound p.unary (Span Unary)
  statement : Sound p.statement StatementSpan
  declaration : Sound p.declaration (Span Recovered)

variable {p : Phrases}

def BlockRest (ts : List Token) (body : List Stmt) : Prop :=
  ∃ us closing, ts = us ++ [closing] ∧ Declarations us body ∧ closing.kind = .symbol .rightBrace

theorem soundBlock (sound : p.IsSound) : Sound p.block (Span BlockRest) := by
  intro c
  have body : Sound (collect atBlockEnd p.declaration c.rest) (Span Declarations) := by
    refine soundCollect soundAtBlockEnd sound.declaration .none ?_ c.rest
    intro ts us x xs first rest
    cases first with
    | declaration inner => exact .more inner rest
    | nothing => exact rest
  refine (body c).bind fun xs c' => (soundExpect rfl c').bind fun closing c'' => soundPure ?_
  rintro ⟨last,kind⟩ ⟨us,here,inner⟩
  exact ⟨us ++ [closing],by simp [here,last],us,closing,rfl,inner,kind⟩

theorem soundLambda (sound : p.IsSound) {keyword : Token} (start : keyword.kind = .keyword .kwFun) :
    Sound (p.lambda keyword.line) (Span fun ts e => Primary (keyword :: ts) e) := by
  intro c
  refine (soundExpect rfl c).bind fun opening c1 => (soundParameters c1).bind fun names c2 =>
    (soundExpect rfl c2).bind fun brace c3 => (soundBlock sound c3).bind fun body c4 => soundPure ?_
  rintro ⟨_,later,us,closing,rfl,inner,after⟩ ⟨between,braceKind⟩ ⟨_,middle,vs,bracket,rfl,list,bracketKind⟩
    ⟨here,kind⟩
  refine ⟨opening :: (vs ++ bracket :: brace :: (us ++ [closing])),?_,?_⟩
  · simp [here,middle,between,later]
  · exact .lambda start kind list bracketKind (.mk braceKind inner after)

theorem soundPrimary (sound : p.IsSound) : Sound p.primary (Span Primary) := by
  intro c
  refine soundPeek ?_
  split
  · rename_i kind
    exact soundTake (by simp [kind]) fun c' here => soundPure ⟨[c.peek],here,.false kind⟩
  · rename_i kind
    exact soundTake (by simp [kind]) fun c' here => soundPure ⟨[c.peek],here,.true kind⟩
  · rename_i kind
    exact soundTake (by simp [kind]) fun c' here => soundPure ⟨[c.peek],here,.nil kind⟩
  · rename_i value kind
    exact soundTake (by simp [kind]) fun c' here => soundPure ⟨[c.peek],here,.number kind⟩
  · rename_i contents kind
    exact soundTake (by simp [kind]) fun c' here => soundPure ⟨[c.peek],here,.string kind⟩
  · rename_i kind
    exact soundTake (by simp [kind]) fun c' here => soundPure ⟨[c.peek],here,.name kind⟩
  · rename_i kind
    exact soundTake (by simp [kind]) fun c' here => soundPure ⟨[c.peek],here,.this kind⟩
  · rename_i kind
    refine soundTake (by simp [kind]) fun c' here => (soundLambda sound kind c').mono ?_
    rintro e after ⟨ts,later,inner⟩
    exact ⟨c.peek :: ts,by simp [here,later],inner⟩
  · rename_i kind
    refine soundTake (by simp [kind]) fun c' here => ?_
    refine (sound.expression c').bind fun inner c'' => (soundExpect rfl c'').bind fun closing c''' => soundPure ?_
    rintro ⟨last,after⟩ ⟨ts,later,middle⟩
    exact ⟨c.peek :: (ts ++ [closing]),by simp [here,later,last],.grouping kind middle after⟩
  · exact soundUnexpected

theorem soundSuffix (sound : p.IsSound) (l e : Expr) : Sound (p.suffix e) (Grows (CallTail l) e) := by
  intro c
  refine soundPeek ?_
  split
  · rename_i kind
    refine soundTake (by simp [kind]) fun c' here => ?_
    refine (soundBracketed sound.expression Arguments.none
      (fun list few => .some (expressionsOfSeparated list) few) c').bind fun r c'' => soundPure ?_
    rintro ⟨_,later,inner⟩ ts start
    cases inner with
    | @mk us es closing list after =>
      refine ⟨c.peek :: (us ++ [closing]),by simp [here,later],?_⟩
      exact callTailAppend start (.call kind list after .stop)
  · rename_i kind
    refine soundTake (by simp [kind]) fun c' here => (soundIdent c').bind fun name c'' => soundPure ?_
    rintro ⟨_,later,inner⟩ ts start
    cases inner with
    | @mk t property =>
      exact ⟨[c.peek,t],by simp [here,later],callTailAppend start (.get kind property .stop)⟩
  · exact soundPure rfl

theorem soundCallRule (sound : p.IsSound) : Sound p.callRule (Span Call) := by
  intro c
  refine (soundPrimary sound c).bind fun l c' => (soundGrowing (soundSuffix sound l) l c').mono ?_
  rintro e after grown ⟨ts,here,head⟩
  obtain ⟨us,later,tail⟩ := grown [] .stop
  exact ⟨ts ++ us,by simp [here,later],.mk head tail⟩

theorem soundUnaryRule (sound : p.IsSound) : Sound p.unaryRule (Span Unary) := by
  intro c
  refine (soundOperator rfl c).bind fun r c' => ?_
  match r with
  | none =>
    refine (soundCallRule sound c').mono ?_
    rintro e after ⟨ts,here,inner⟩ ⟨same,_⟩
    exact ⟨ts,by rw [← same,here],.call inner⟩
  | some (op,line) =>
    refine (sound.unary c').bind fun e c'' => soundPure ?_
    rintro ⟨ts,later,inner⟩ ⟨t,here,found,rfl⟩
    refine ⟨t :: ts,by simp [here,later],.operation ?_ inner⟩
    unfold UnaryOp.ofPrefix? at found
    split at found <;> simp_all [prefixOperators]

theorem soundLeftAssoc {level : Level} {table : Kind → Option α} {build : Expr → α → Expr → Nat → Expr}
    {operand : Parser Expr} (tabled : Tabled level table build) (operands : Sound operand (Span (Operand level))) :
    Sound (leftAssoc table build operand) (Span (Chain level)) := by
  have step (l left : Expr) : Sound (operation table build operand left) (Grows (ChainTail level l) left) := by
    intro c
    refine (soundOperator tabled.noEnd c).bind fun r c' => ?_
    match r with
    | none => exact soundPure fun same => same.1
    | some (op,line) =>
      refine (operands c').bind fun right c'' => soundPure ?_
      rintro ⟨us,later,inner⟩ ⟨t,here,found,rfl⟩ ts start
      refine ⟨t :: us,by simp [here,later],chainTailAppend start ?_⟩
      simpa using ChainTail.step (tabled.listed t.kind op found) inner .stop
  intro c
  refine (operands c).bind fun l c' => (soundGrowing (step l) l c').mono ?_
  rintro e after grown ⟨ts,here,head⟩
  obtain ⟨us,later,tail⟩ := grown [] .stop
  exact ⟨ts ++ us,by simp [here,later],.mk head tail⟩

theorem spanOperand {level next : Level} (tighter : level.tighter = some next) {before e after}
    (span : Span (Chain next) before e after) : Span (Operand level) before e after := by
  obtain ⟨ts,here,inner⟩ := span
  exact ⟨ts,here,.chain tighter inner⟩

theorem soundLevel {level next : Level} {table : Kind → Option α} {build : Expr → α → Expr → Nat → Expr}
    {operand : Parser Expr} (tabled : Tabled level table build) (tighter : level.tighter = some next)
    (operands : Sound operand (Span (Chain next))) : Sound (leftAssoc table build operand) (Span (Chain level)) :=
  soundLeftAssoc tabled (operands.mono fun _ _ _ => spanOperand tighter)

theorem soundFactorRule (sound : p.IsSound) : Sound p.factorRule (Span (Chain .factor)) := by
  refine soundLeftAssoc tabledFactor ((soundUnaryRule sound).mono ?_)
  rintro before e after ⟨ts,here,inner⟩
  exact ⟨ts,here,.unary rfl inner⟩

theorem soundTermRule (sound : p.IsSound) : Sound p.termRule (Span (Chain .term)) :=
  soundLevel tabledTerm rfl (soundFactorRule sound)

theorem soundComparisonRule (sound : p.IsSound) : Sound p.comparisonRule (Span (Chain .comparison)) :=
  soundLevel tabledComparison rfl (soundTermRule sound)

theorem soundEqualityRule (sound : p.IsSound) : Sound p.equalityRule (Span (Chain .equality)) :=
  soundLevel tabledEquality rfl (soundComparisonRule sound)

theorem soundAndRule (sound : p.IsSound) : Sound p.andRule (Span (Chain .and)) :=
  soundLevel tabledAnd rfl (soundEqualityRule sound)

theorem soundOrRule (sound : p.IsSound) : Sound p.orRule (Span (Chain .or)) :=
  soundLevel tabledOr rfl (soundAndRule sound)

theorem soundTernaryRule (sound : p.IsSound) : Sound p.ternaryRule (Span Ternary) := by
  intro c
  refine (soundOrRule sound c).bind fun condition c1 => (soundAccept rfl c1).bind fun question c2 => ?_
  cases question with
  | none =>
    refine soundPure ?_
    rintro ⟨same,_⟩ ⟨ts,here,inner⟩
    exact ⟨ts,by rw [here,same],.plain inner⟩
  | some question =>
    refine (sound.expression c2).bind fun thenBranch c3 => (soundExpect rfl c3).bind fun colon c4 =>
      (sound.ternary c4).bind fun elseBranch c5 => soundPure ?_
    rintro ⟨vs,last,second⟩ ⟨between,divider⟩ ⟨us,middle,first⟩ ⟨later,mark⟩ ⟨ts,here,test⟩
    refine ⟨ts ++ question :: (us ++ colon :: vs),?_,.choice test mark first divider second⟩
    simp [here,later,middle,between,last]

theorem soundExpressionRule (sound : p.IsSound) : Sound p.expressionRule (Span Expression) := by
  intro c
  refine (soundTernaryRule sound c).bind fun target c1 => (soundAccept rfl c1).bind fun equal c2 => ?_
  cases equal with
  | none =>
    refine soundPure ?_
    rintro ⟨same,_⟩ ⟨ts,here,inner⟩
    exact ⟨ts,by rw [here,same],.ternary inner⟩
  | some equal =>
    refine (sound.expression c2).bind fun value c3 => ?_
    split
    · refine soundPure ?_
      rintro ⟨us,last,source⟩ ⟨later,sign⟩ ⟨ts,here,inner⟩
      obtain ⟨t,rfl,kind,rfl⟩ := callVar (ternaryTarget inner rfl)
      exact ⟨t :: equal :: us,by simp [here,later,last],.assign kind sign source⟩
    · refine soundPure ?_
      rintro ⟨us,last,source⟩ ⟨later,sign⟩ ⟨ts,here,inner⟩
      obtain ⟨vs,dot,t,rfl,receiver,point,kind,rfl⟩ := callGet (ternaryTarget inner rfl)
      exact ⟨vs ++ dot :: t :: equal :: us,by simp [here,later,last],.set receiver point kind sign source⟩
    · exact soundFail

theorem soundExpressionStatement (sound : p.IsSound) :
    Sound p.expressionStatement (Span ExpressionStatement) := by
  intro c
  refine (soundExpressionRule sound c).bind fun e c1 => (soundExpect rfl c1).bind fun semicolon c2 =>
    soundPure ?_
  rintro ⟨last,kind⟩ ⟨ts,here,inner⟩
  exact ⟨ts ++ [semicolon],by simp [here,last],.mk inner kind⟩

theorem soundVarDeclaration (sound : p.IsSound) {keyword : Token} (start : keyword.kind = .keyword .kwVar) :
    Sound p.varDeclaration (Span fun ts s => VarDecl (keyword :: ts) s) := by
  intro c
  refine (soundIdent c).bind fun name c1 => (soundAccept rfl c1).bind fun equal c2 => ?_
  cases equal with
  | none =>
    refine (soundExpect rfl c2).bind fun semicolon c3 => soundPure ?_
    rintro ⟨last,kind⟩ ⟨same,_⟩ ⟨_,here,⟨title⟩⟩
    exact ⟨[_,semicolon],by simp [here,← same,last],.bare start title kind⟩
  | some equal =>
    refine (sound.expression.some c2).bind fun initializer c3 => (soundExpect rfl c3).bind fun semicolon c4 =>
      soundPure ?_
    rintro ⟨last,kind⟩ ⟨e,rfl,ts,later,inner⟩ ⟨between,sign⟩ ⟨_,here,⟨title⟩⟩
    exact ⟨_ :: equal :: (ts ++ [semicolon]),by simp [here,between,later,last],
      .initialized start title sign inner kind⟩

theorem soundOptionalExpression (sound : p.IsSound) {last : Kind} :
    Sound (p.optionalExpression last) (Span OptionalExpression) := by
  intro c
  refine soundCheck ?_
  split
  · exact soundPure ⟨[],rfl,.none⟩
  · refine (sound.expression c).bind fun e c' => soundPure ?_
    rintro ⟨ts,here,inner⟩
    exact ⟨ts,here,.some inner⟩

theorem soundReturnStatement (sound : p.IsSound) {keyword : Token} (start : keyword.kind = .keyword .kwReturn) :
    Sound (p.returnStatement (identOf keyword)) (Span fun ts s => Statement false (keyword :: ts) s) := by
  intro c
  refine (soundOptionalExpression sound c).bind fun value c1 => (soundExpect rfl c1).bind fun semicolon c2 =>
    soundPure ?_
  rintro ⟨last,kind⟩ ⟨ts,here,inner⟩
  exact ⟨ts ++ [semicolon],by simp [here,last],.returned start inner kind⟩

theorem soundPrintStatement (sound : p.IsSound) {keyword : Token} (start : keyword.kind = .keyword .kwPrint) :
    Sound p.printStatement (Span fun ts s => Statement false (keyword :: ts) s) := by
  intro c
  refine (sound.expression c).bind fun value c1 => (soundExpect rfl c1).bind fun semicolon c2 => soundPure ?_
  rintro ⟨last,kind⟩ ⟨ts,here,inner⟩
  exact ⟨ts ++ [semicolon],by simp [here,last],.print start inner kind⟩

def AfterKeyword (keyword : Token) (before : List Token) (s : Stmt) (after : List Token) : Prop :=
  StatementSpan (keyword :: before) s after

theorem soundWhileStatement (sound : p.IsSound) {keyword : Token} (start : keyword.kind = .keyword .kwWhile) :
    Sound p.whileStatement (AfterKeyword keyword) := by
  intro c
  refine (soundExpect rfl c).bind fun opening c1 => (sound.expression c1).bind fun condition c2 =>
    (soundExpect rfl c2).bind fun closing c3 => (sound.statement c3).bind fun body c4 => soundPure ?_
  rintro ⟨short,us,last,inner,ends⟩ ⟨between,after⟩ ⟨ts,later,test⟩ ⟨here,before⟩
  refine ⟨short,keyword :: opening :: (ts ++ closing :: us),?_,.whileLoop start before test after inner,ends⟩
  simp [here,later,between,last]

theorem soundIfStatement (sound : p.IsSound) {keyword : Token} (start : keyword.kind = .keyword .kwIf) :
    Sound p.ifStatement (AfterKeyword keyword) := by
  intro c
  refine (soundExpect rfl c).bind fun opening c1 => (sound.expression c1).bind fun condition c2 =>
    (soundExpect rfl c2).bind fun closing c3 => (sound.statement c3).bind fun thenBranch c4 =>
    (soundAccept rfl c4).bind fun other c5 => ?_
  cases other with
  | none =>
    refine soundPure ?_
    rintro ⟨same,noElse⟩ ⟨short,us,last,inner,_⟩ ⟨between,after⟩ ⟨ts,later,test⟩ ⟨here,before⟩
    refine ⟨true,keyword :: opening :: (ts ++ closing :: us),?_,.ifOnly start before test after inner,?_⟩
    · simp [here,later,between,last,same]
    · rw [same]
      exact fun _ => noElse
  | some other =>
    refine (sound.statement.some c5).bind fun elseBranch c6 => soundPure ?_
    rintro ⟨t,rfl,short,vs,finish,second,ends⟩ ⟨there,divider⟩ ⟨shortFirst,us,last,first,unclosed⟩ ⟨between,after⟩
      ⟨ts,later,test⟩ ⟨here,before⟩
    -- the first branch did not take the `else`, so it does not end in an `if` without one
    have closed : shortFirst = false := by
      cases shortFirst with
      | false => rfl
      | true => exact absurd (by simp [there,divider]) (unclosed rfl)
    subst closed
    refine ⟨short,keyword :: opening :: (ts ++ closing :: (us ++ other :: vs)),?_,
      .ifElse start before test after first divider second,ends⟩
    simp [here,later,between,last,there,finish]

theorem forLoopTree (line : Nat) (initializer : Option Stmt) (condition increment : Option Expr) (body : Stmt) :
    forLoop line initializer condition increment body = forTree line condition body initializer increment := by
  cases initializer <;> cases increment <;> rfl

theorem soundForInitializer (sound : p.IsSound) : Sound p.forInitializer (Span ForInitializer) := by
  intro c
  refine soundPeek ?_
  split
  · rename_i kind
    exact soundTake (by simp [kind]) fun c' here => soundPure ⟨[c.peek],here,.none kind⟩
  · rename_i kind
    refine soundTake (by simp [kind]) fun c' here => (soundVarDeclaration sound kind c').bind fun s c'' =>
      soundPure ?_
    rintro ⟨ts,later,inner⟩
    exact ⟨c.peek :: ts,by simp [here,later],.varDecl inner⟩
  · refine (soundExpressionStatement sound c).bind fun s c' => soundPure ?_
    rintro ⟨ts,here,inner⟩
    exact ⟨ts,here,.expression inner⟩

theorem soundForStatement (sound : p.IsSound) {keyword : Token} (start : keyword.kind = .keyword .kwFor) :
    Sound (p.forStatement keyword.line) (AfterKeyword keyword) := by
  intro c
  refine (soundExpect rfl c).bind fun opening c1 => (soundForInitializer sound c1).bind fun initializer c2 =>
    (soundOptionalExpression sound c2).bind fun condition c3 => (soundExpect rfl c3).bind fun semicolon c4 =>
    (soundOptionalExpression sound c4).bind fun increment c5 => (soundExpect rfl c5).bind fun closing c6 =>
    (sound.statement c6).bind fun body c7 => soundPure ?_
  rintro ⟨short,ws,last,inner,ends⟩ ⟨there,after⟩ ⟨vs,between,step⟩ ⟨next,divider⟩ ⟨us,later,test⟩ ⟨ts,soon,first⟩
    ⟨here,before⟩
  rw [forLoopTree]
  refine ⟨short,keyword :: opening :: (ts ++ (us ++ semicolon :: (vs ++ closing :: ws))),?_,
    .forLoop start before first test divider step after inner,ends⟩
  simp [here,soon,later,next,between,there,last]

theorem spanStatement {before s after} (span : Span (Statement false) before s after) :
    StatementSpan before s after := by
  obtain ⟨ts,here,inner⟩ := span
  exact ⟨false,ts,here,inner,by simp⟩

theorem soundStatementRule (sound : p.IsSound) : Sound p.statementRule StatementSpan := by
  intro c
  refine soundPeek ?_
  split
  · rename_i kind
    refine soundTake (by simp [kind]) fun c' here => (soundForStatement sound kind c').mono ?_
    exact fun s after holds => here ▸ holds
  · rename_i kind
    refine soundTake (by simp [kind]) fun c' here => (soundIfStatement sound kind c').mono ?_
    exact fun s after holds => here ▸ holds
  · rename_i kind
    refine soundTake (by simp [kind]) fun c' here => (soundWhileStatement sound kind c').mono ?_
    exact fun s after holds => here ▸ holds
  · rename_i kind
    refine soundTake (by simp [kind]) fun c' here => (soundReturnStatement sound kind c').mono ?_
    rintro s after ⟨ts,later,inner⟩
    exact spanStatement ⟨c.peek :: ts,by simp [here,later],inner⟩
  · rename_i kind
    refine soundTake (by simp [kind]) fun c' here => (soundBlock sound c').bind fun body c'' => soundPure ?_
    rintro ⟨_,later,us,closing,rfl,inner,after⟩
    exact spanStatement ⟨c.peek :: (us ++ [closing]),by simp [here,later],.block (.mk kind inner after)⟩
  · rename_i kind
    refine soundTake (by simp [kind]) fun c' here => (soundPrintStatement sound kind c').mono ?_
    rintro s after ⟨ts,later,inner⟩
    exact spanStatement ⟨c.peek :: ts,by simp [here,later],inner⟩
  · refine (soundExpressionStatement sound c).mono ?_
    rintro s after ⟨ts,here,inner⟩
    exact spanStatement ⟨ts,here,.expression inner⟩

theorem soundFunction (sound : p.IsSound) (role : FunctionRole) : Sound (p.function role) (Span Function) := by
  intro c
  refine (soundIdent c).bind fun name c1 => (soundExpect rfl c1).bind fun opening c2 =>
    (soundParameters c2).bind fun params c3 => (soundExpect rfl c3).bind fun brace c4 =>
    (soundBlock sound c4).bind fun body c5 => soundPure ?_
  rintro ⟨_,last,us,closing,rfl,inner,after⟩ ⟨there,braceKind⟩ ⟨_,later,ts,bracket,rfl,list,bracketKind⟩
    ⟨between,before⟩ ⟨_,here,⟨title⟩⟩
  refine ⟨_ :: opening :: (ts ++ bracket :: brace :: (us ++ [closing])),?_,
    .mk title before list bracketKind (.mk braceKind inner after)⟩
  simp [here,between,later,there,last]

inductive Member : List Token → Option (Bool × FunctionDecl) → Prop where
  | method {ts decl} (inner : Function ts decl) : Member ts (some (false,decl))
  | classMethod {keyword ts decl} (start : keyword.kind = .keyword .kwClass) (inner : Function ts decl) :
      Member (keyword :: ts) (some (true,decl))

theorem soundMethod (sound : p.IsSound) : Sound p.method (Span Member) := by
  intro c
  refine (soundAccept rfl c).bind fun keyword c1 => ?_
  cases keyword with
  | none =>
    refine (soundFunction sound .method c1).bind fun decl c2 => soundPure ?_
    rintro ⟨ts,here,inner⟩ ⟨same,_⟩
    exact ⟨ts,by rw [← same,here],.method inner⟩
  | some keyword =>
    refine (soundFunction sound .method c1).bind fun decl c2 => soundPure ?_
    rintro ⟨ts,later,inner⟩ ⟨here,start⟩
    exact ⟨keyword :: ts,by simp [here,later],.classMethod start inner⟩

def MemberList (ts : List Token) (members : List (Bool × FunctionDecl)) : Prop :=
  Members ts ((members.filter (fun m => !m.1)).map (·.2)) ((members.filter (fun m => m.1)).map (·.2))

theorem soundMembers (sound : p.IsSound) : Sound p.members (Span fun ts members =>
    ∃ opening us closing, ts = opening :: (us ++ [closing]) ∧ opening.kind = .symbol .leftBrace ∧
      MemberList us members ∧ closing.kind = .symbol .rightBrace) := by
  have more {ts us x xs} (first : Member ts x) (rest : MemberList us xs) :
      MemberList (ts ++ us) (x.toList ++ xs) := by
    cases first with
    | method inner => simpa [MemberList] using Members.method inner rest
    | classMethod start inner => simpa [MemberList] using Members.classMethod start inner rest
  have list : Sound (collecting atBlockEnd p.method) (Span MemberList) := fun c =>
    soundCollect soundAtBlockEnd (soundMethod sound) Members.none more c.rest c
  intro c
  refine (soundExpect rfl c).bind fun opening c1 => (list c1).bind fun members c2 =>
    (soundExpect rfl c2).bind fun closing c3 => soundPure ?_
  rintro ⟨last,after⟩ ⟨us,later,inner⟩ ⟨here,before⟩
  exact ⟨opening :: (us ++ [closing]),by simp [here,later,last],opening,us,closing,rfl,before,inner,after⟩

inductive Superclass : List Token → Option Expr → Prop where
  | none : Superclass [] none
  | some {less parent} (sign : less.kind = .symbol .less) (title : parent.kind = .identifier) :
      Superclass [less,parent] (some (.var (identOf parent) none))

theorem soundSuperclass : Sound superclass (Span Superclass) := by
  intro c
  refine (soundAccept rfl c).bind fun less c1 => ?_
  cases less with
  | none =>
    refine soundPure ?_
    rintro ⟨same,_⟩
    exact ⟨[],same.symm,.none⟩
  | some less =>
    refine (soundIdent c1).bind fun parent c2 => soundPure ?_
    rintro ⟨_,later,⟨title⟩⟩ ⟨here,sign⟩
    exact ⟨[less,_],by simp [here,later],.some sign title⟩

theorem soundClassDeclaration (sound : p.IsSound) {keyword : Token} (start : keyword.kind = .keyword .kwClass) :
    Sound p.classDeclaration (Span fun ts s => Declaration (keyword :: ts) s) := by
  intro c
  refine (soundIdent c).bind fun name c1 => (soundSuperclass c1).bind fun parent c2 =>
    (soundMembers sound c2).bind fun members c3 => soundPure ?_
  rintro ⟨_,last,opening,us,closing,rfl,before,inner,after⟩ ⟨ts,later,superclass⟩ ⟨_,here,⟨title⟩⟩
  cases superclass with
  | none =>
    refine ⟨_ :: opening :: (us ++ [closing]),?_,.classDecl start title before inner after⟩
    simp_all
  | some sign parentTitle =>
    refine ⟨_ :: _ :: _ :: opening :: (us ++ [closing]),?_,
      .subclass start title sign parentTitle before inner after⟩
    simp_all

theorem soundPlainDeclaration (sound : p.IsSound) : Sound p.plainDeclaration (Span Declaration) := by
  have statement (c : Cursor) : SoundAt p.statementRule c (Span Declaration c.rest) := by
    refine (soundStatementRule sound c).mono ?_
    rintro s after ⟨short,ts,here,inner,_⟩
    exact ⟨ts,here,.statement inner⟩
  intro c
  refine soundPeek ?_
  split
  · rename_i kind
    refine soundTake (by simp [kind]) fun c' here => (soundClassDeclaration sound kind c').mono ?_
    rintro s after ⟨ts,later,inner⟩
    exact ⟨c.peek :: ts,by simp [here,later],inner⟩
  · rename_i kind
    refine soundPeekSecond ?_
    split
    · refine soundTake (by simp [kind]) fun c' here => (soundFunction sound .function c').bind fun decl c'' =>
        soundPure ?_
      rintro ⟨ts,later,inner⟩
      exact ⟨c.peek :: ts,by simp [here,later],.funDecl kind inner⟩
    · exact statement c
  · rename_i kind
    refine soundTake (by simp [kind]) fun c' here => (soundVarDeclaration sound kind c').mono ?_
    rintro s after ⟨ts,later,inner⟩
    exact ⟨c.peek :: ts,by simp [here,later],.varDecl inner⟩
  · exact statement c

theorem synchronizeErrors (c : Cursor) : c.synchronize.errors = c.errors := by
  unfold Cursor.synchronize
  split
  · rfl
  · split <;> rfl

theorem soundDeclarationRule (sound : p.IsSound) :
    Sound p.declarationRule (Span fun ts r => ∃ s, r = some s ∧ Declaration ts s) := by
  intro c
  have plain := soundPlainDeclaration sound c
  unfold SoundAt at plain ⊢
  cases h : p.plainDeclaration c with
  | ok s c' =>
    simp only [h,declarationRule] at plain ⊢
    refine ⟨plain.1,fun same => ?_⟩
    obtain ⟨consumed,ts,here,inner⟩ := plain.2 same
    exact ⟨consumed,ts,here,s,rfl,inner⟩
  | error e c' =>
    simp only [h,declarationRule,synchronizeErrors,Cursor.record] at plain ⊢
    refine ⟨plain.trans (List.prefix_append _ _),fun same => ?_⟩
    -- a recovery leaves its error behind
    have lengths := congrArg List.length same
    have grown := plain.length_le
    simp only [List.length_append,List.length_cons,List.length_nil] at lengths
    omega

theorem soundNext (sound : p.IsSound) : p.next.IsSound where
  expression := soundExpressionRule sound
  ternary := soundTernaryRule sound
  unary := soundUnaryRule sound
  statement := soundStatementRule sound
  declaration := by
    refine (soundDeclarationRule sound).mono ?_
    rintro before r after ⟨ts,here,s,rfl,inner⟩
    exact ⟨ts,here,.declaration inner⟩

theorem soundEmpty : empty.IsSound where
  expression _ := soundUnexpected
  ternary _ := soundUnexpected
  unary _ := soundUnexpected
  statement _ := soundUnexpected
  declaration _ := soundPure ⟨[],rfl,.nothing⟩

theorem soundUpTo (n : Nat) : (upTo n).IsSound := by
  induction n with
  | zero => exact soundEmpty
  | succ n ih => exact soundNext ih

end Phrases

namespace Grammar

def EndsOnce (tokens : List Token) : Prop :=
  ∃ body last, tokens = body ++ [last] ∧ last.kind = .eof ∧ ∀ t ∈ body, t.kind ≠ .eof

theorem declarationNotEmpty {ts s} (phrase : Declaration ts s) : ts ≠ [] := by
  cases phrase with
  | varDecl inner => cases inner <;> simp
  | statement inner =>
    cases inner with
    | expression inner => cases inner; simp
    | block inner => cases inner; simp
    | _ => simp
  | _ => simp

end Grammar

open Grammar Treewalk.Parser Phrases

theorem restIsEnd {tokens rest : List Token} (ends : EndsOnce tokens) (consumed : Consumed tokens rest)
    (stopped : (rest.headD Token.missingEnd).kind = .eof) :
    ∃ body last, tokens = body ++ [last] ∧ rest = [last] ∧ last.kind = .eof := by
  obtain ⟨body,last,rfl,kind,clean⟩ := ends
  obtain ⟨ts,split,clean'⟩ := consumed
  refine ⟨body,last,rfl,?_,kind⟩
  rcases List.append_eq_append_iff.mp split with ⟨us,rfl,tail⟩ | ⟨us,rfl,tail⟩
  · cases us with
    | nil => simpa using tail.symm
    | cons u us =>
      simp only [List.cons_append,List.cons.injEq] at tail
      exact absurd (tail.1 ▸ kind) (clean' u (by simp))
  · cases us with
    | nil => simpa using tail
    | cons u us =>
      subst tail
      exact absurd stopped (clean u (by simp))

theorem soundDeclarations (n : Nat) (tokens : List Token) :
    Sound (collect atEnd (upTo (n + 1)).declaration tokens) fun before ast after =>
      Span Declarations before ast after ∧
        (before.length ≤ tokens.length → (after.headD Token.missingEnd).kind.agrees .eof = true) := by
  have items := soundDeclarationRule (soundUpTo n)
  have list : Sound (collect atEnd (upTo (n + 1)).declaration tokens) (Span Declarations) := by
    refine soundCollect (soundAtEnd.mono fun _ _ _ stopped => stopped.1) items .none ?_ tokens
    rintro ts us x xs ⟨s,rfl,inner⟩ rest
    exact .more inner rest
  refine list.and (soundCollectStops soundAtEnd (items.mono ?_) rfl tokens)
  rintro before r after ⟨ts,here,s,rfl,inner⟩
  have some := List.length_pos_iff.mpr (declarationNotEmpty inner)
  rw [here,List.length_append]
  omega

theorem programSound {tokens : List Token} {ast : List Stmt} (ends : EndsOnce tokens)
    (accepted : parseProgram tokens = .ok ast) : Grammar.Program tokens ast := by
  have some : tokens ≠ [] := by
    obtain ⟨body,last,rfl,_⟩ := ends
    simp
  obtain ⟨n,size⟩ : ∃ n, tokens.length = n + 1 :=
    Nat.exists_eq_succ_of_ne_zero (by simpa using some)
  have sound := soundDeclarations n tokens ⟨tokens,[]⟩
  unfold parseProgram collecting at accepted
  rw [size] at accepted
  unfold SoundAt at sound
  cases h : collect atEnd (upTo (n + 1)).declaration tokens ⟨tokens,[]⟩ with
  | error e c => simp [h] at accepted
  | ok program c =>
    simp only [h] at accepted sound
    split at accepted
    · rename_i clean
      obtain ⟨consumed,⟨ts,here,inner⟩,stopped⟩ := sound.2 (by simpa using clean)
      obtain ⟨body,last,whole,rest,kind⟩ :=
        restIsEnd ends consumed (Kind.agreesEnd.mp (stopped (Nat.le_refl _)))
      cases accepted
      simp only [rest] at here
      exact here ▸ .mk inner kind
    · cases accepted

/- The errors that were recovered from while an expression was read, inside the bodies of its lambdas. -/
def recoveredErrors (tokens : List Token) : List SyntaxError :=
  match wholeExpression (Phrases.upTo tokens.length) ⟨tokens,[]⟩ with
  | .ok _ c => c.errors
  | .error _ c => c.errors

theorem soundWholeExpression {p : Phrases} (sound : p.IsSound) : Sound (wholeExpression p)
    fun before e after => Span Expression before e after ∧ (after.headD Token.missingEnd).kind = .eof := by
  intro c
  refine (sound.expression c).bind fun e c1 => (soundAtEnd c1).bind fun stopped c2 => ?_
  split
  · rename_i stop
    refine soundPure ?_
    rintro ⟨same,holds⟩ ⟨ts,here,inner⟩
    rw [same]
    exact ⟨⟨ts,here,inner⟩,Kind.agreesEnd.mp (holds ▸ stop)⟩
  · exact soundUnexpected

theorem expressionSound {tokens : List Token} {e : Expr} (ends : EndsOnce tokens)
    (accepted : parseExpression tokens = .ok e) (clean : recoveredErrors tokens = []) :
    Grammar.WholeExpression tokens e := by
  have sound := soundWholeExpression (soundUpTo tokens.length) ⟨tokens,[]⟩
  unfold parseExpression at accepted
  unfold recoveredErrors at clean
  unfold SoundAt at sound
  cases h : wholeExpression (Phrases.upTo tokens.length) ⟨tokens,[]⟩ with
  | error e c => simp [h] at accepted
  | ok program c =>
    simp only [h] at accepted sound clean
    obtain ⟨consumed,⟨ts,here,inner⟩,stopped⟩ := sound.2 clean
    obtain ⟨body,last,whole,rest,kind⟩ := restIsEnd ends consumed stopped
    cases accepted
    simp only [rest] at here
    exact here ▸ .mk inner kind

end Treewalk
