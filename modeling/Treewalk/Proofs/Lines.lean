import Treewalk.Proofs.Parsing.Complete

/-! Lines of tokens and of trees. No rule of the grammar looks at a line: if the lines of all tokens of a phrase are
changed, the phrase stands for the same tree with its lines changed in the same way. -/
namespace Treewalk

def Token.mapLine (f : Nat → Nat) (t : Token) : Token := { t with line := f t.line }

def Ident.mapLine (f : Nat → Nat) (name : Ident) : Ident := { name with line := f name.line }

mutual

def Expr.mapLines (f : Nat → Nat) : Expr → Expr
  | .literal value line => .literal value (f line)
  | .unary op right line => .unary op (right.mapLines f) (f line)
  | .binary left op right line => .binary (left.mapLines f) op (right.mapLines f) (f line)
  | .logical left op right line => .logical (left.mapLines f) op (right.mapLines f) (f line)
  | .ternary condition thenBranch elseBranch line =>
    .ternary (condition.mapLines f) (thenBranch.mapLines f) (elseBranch.mapLines f) (f line)
  | .grouping inner => .grouping (inner.mapLines f)
  | .var name depth => .var (name.mapLine f) depth
  | .assign name value depth => .assign (name.mapLine f) (value.mapLines f) depth
  | .call callee arguments line => .call (callee.mapLines f) (Expr.mapLinesAll f arguments) (f line)
  | .get object name => .get (object.mapLines f) (name.mapLine f)
  | .set object name value => .set (object.mapLines f) (name.mapLine f) (value.mapLines f)
  | .this keyword depth => .this (keyword.mapLine f) depth
  | .lambda decl => .lambda (decl.mapLines f)

def Expr.mapLinesAll (f : Nat → Nat) : List Expr → List Expr
  | [] => []
  | e :: rest => e.mapLines f :: Expr.mapLinesAll f rest

def Expr.mapLinesOption (f : Nat → Nat) : Option Expr → Option Expr
  | none => none
  | some e => some (e.mapLines f)

def Stmt.mapLines (f : Nat → Nat) : Stmt → Stmt
  | .expression value => .expression (value.mapLines f)
  | .print value => .print (value.mapLines f)
  | .varDecl name initializer => .varDecl (name.mapLine f) (Expr.mapLinesOption f initializer)
  | .block body => .block (Stmt.mapLinesAll f body)
  | .ifElse condition thenBranch elseBranch =>
    .ifElse (condition.mapLines f) (thenBranch.mapLines f) (Stmt.mapLinesOption f elseBranch)
  | .whileLoop condition body => .whileLoop (condition.mapLines f) (body.mapLines f)
  | .funDecl decl => .funDecl (decl.mapLines f)
  | .classDecl decl => .classDecl (decl.mapLines f)
  | .returnStmt keyword value => .returnStmt (keyword.mapLine f) (Expr.mapLinesOption f value)

def Stmt.mapLinesAll (f : Nat → Nat) : List Stmt → List Stmt
  | [] => []
  | s :: rest => s.mapLines f :: Stmt.mapLinesAll f rest

def Stmt.mapLinesOption (f : Nat → Nat) : Option Stmt → Option Stmt
  | none => none
  | some s => some (s.mapLines f)

def FunctionDecl.mapLines (f : Nat → Nat) : FunctionDecl → FunctionDecl
  | ⟨name, params, body, line⟩ =>
    ⟨name.map (Ident.mapLine f), params.map (Ident.mapLine f), Stmt.mapLinesAll f body, f line⟩

def FunctionDecl.mapLinesAll (f : Nat → Nat) : List FunctionDecl → List FunctionDecl
  | [] => []
  | decl :: rest => decl.mapLines f :: FunctionDecl.mapLinesAll f rest

def ClassDecl.mapLines (f : Nat → Nat) : ClassDecl → ClassDecl
  | ⟨name, superclass, methods, classMethods⟩ =>
    ⟨name.mapLine f, Expr.mapLinesOption f superclass, FunctionDecl.mapLinesAll f methods,
      FunctionDecl.mapLinesAll f classMethods⟩

end

theorem Expr.mapLinesAllLength (f : Nat → Nat) (es : List Expr) : (Expr.mapLinesAll f es).length = es.length := by
  induction es with
  | nil => rfl
  | cons e rest ih => simp [Expr.mapLinesAll, ih]

namespace Grammar
variable (f : Nat → Nat)

theorem operatorMoved {level : Level} {kind : Kind} {build : Expr → Expr → Nat → Expr}
    (sign : (kind, build) ∈ level.operators) (l r : Expr) (line : Nat) :
    (build l r line).mapLines f = build (l.mapLines f) (r.mapLines f) (f line) := by
  cases level <;> simp only [Level.operators, List.mem_cons, List.not_mem_nil, or_false, Prod.mk.injEq] at sign
  case or | and =>
    obtain ⟨_, rfl⟩ := sign
    rfl
  case comparison => obtain ⟨_, rfl⟩ | ⟨_, rfl⟩ | ⟨_, rfl⟩ | ⟨_, rfl⟩ := sign <;> rfl
  case equality | term | factor => obtain ⟨_, rfl⟩ | ⟨_, rfl⟩ := sign <;> rfl

theorem forTreeMoved (line : Nat) (condition : Option Expr) (body : Stmt) (init : Option Stmt) (step : Option Expr) :
    (forTree line condition body init step).mapLines f =
      forTree (f line) (Expr.mapLinesOption f condition) (body.mapLines f) (Stmt.mapLinesOption f init)
        (Expr.mapLinesOption f step) := by
  cases condition <;> cases init <;> cases step <;> rfl

theorem nameMoved {ts : List Token} {name : Ident} (h : Name ts name) :
    Name (ts.map (Token.mapLine f)) (name.mapLine f) := by
  obtain ⟨kind⟩ := h
  exact .mk kind

theorem separatedMoved {ts : List Token} {names : List Ident} (list : Separated Name ts names) :
    Separated Name (ts.map (Token.mapLine f)) (names.map (Ident.mapLine f)) := by
  induction list with
  | last item => exact .last (nameMoved f item)
  | more item divider tail ih =>
    rw [List.map_append]
    exact .more (nameMoved f item) divider ih

theorem parametersMoved {ts : List Token} {names : List Ident} (list : Parameters ts names) :
    Parameters (ts.map (Token.mapLine f)) (names.map (Ident.mapLine f)) := by
  cases list with
  | none => exact .none
  | some list few => exact .some (separatedMoved f list) (by simpa using few)

mutual

theorem expressionMoved : ∀ {ts e}, Expression ts e → Expression (ts.map (Token.mapLine f)) (e.mapLines f)
  | _, _, .assign target sign source => .assign target sign (expressionMoved source)
  | _, _, .set receiver point target sign source => by
    rw [List.map_append]
    exact .set (callMoved receiver) point target sign (expressionMoved source)
  | _, _, .ternary inner => .ternary (ternaryMoved inner)

theorem ternaryMoved : ∀ {ts e}, Ternary ts e → Ternary (ts.map (Token.mapLine f)) (e.mapLines f)
  | _, _, .plain inner => .plain (chainMoved inner)
  | _, _, .choice test mark first divider second => by
    simp only [List.map_append, List.map_cons]
    exact .choice (chainMoved test) mark (expressionMoved first) divider (ternaryMoved second)

theorem chainMoved : ∀ {level ts e}, Chain level ts e → Chain level (ts.map (Token.mapLine f)) (e.mapLines f)
  | _, _, _, .mk head tail => by
    rw [List.map_append]
    exact .mk (operandMoved head) (chainTailMoved tail)

theorem chainTailMoved : ∀ {level l ts e}, ChainTail level l ts e →
    ChainTail level (l.mapLines f) (ts.map (Token.mapLine f)) (e.mapLines f)
  | _, _, _, _, .stop => .stop
  | _, l, _, _, .step sign operand tail => by
    have rest := chainTailMoved tail
    rw [operatorMoved f sign] at rest
    simp only [List.map_append, List.map_cons]
    exact .step sign (operandMoved operand) rest

theorem operandMoved : ∀ {level ts e}, Operand level ts e → Operand level (ts.map (Token.mapLine f)) (e.mapLines f)
  | _, _, _, .chain tighter inner => .chain tighter (chainMoved inner)
  | _, _, _, .unary tightest inner => .unary tightest (unaryMoved inner)

theorem unaryMoved : ∀ {ts e}, Unary ts e → Unary (ts.map (Token.mapLine f)) (e.mapLines f)
  | _, _, .operation operator inner => .operation operator (unaryMoved inner)
  | _, _, .call inner => .call (callMoved inner)

theorem callMoved : ∀ {ts e}, Call ts e → Call (ts.map (Token.mapLine f)) (e.mapLines f)
  | _, _, .mk head tail => by
    rw [List.map_append]
    exact .mk (primaryMoved head) (callTailMoved tail)

theorem callTailMoved : ∀ {l ts e}, CallTail l ts e →
    CallTail (l.mapLines f) (ts.map (Token.mapLine f)) (e.mapLines f)
  | _, _, _, .stop => .stop
  | _, _, _, .call before list after tail => by
    simp only [List.map_append, List.map_cons]
    exact .call before (argumentsMoved list) after (callTailMoved tail)
  | _, _, _, .get point property tail => .get point property (callTailMoved tail)

theorem argumentsMoved : ∀ {ts es}, Arguments ts es → Arguments (ts.map (Token.mapLine f)) (Expr.mapLinesAll f es)
  | _, _, .none => .none
  | _, es, .some list few => .some (expressionsMoved list) ((Expr.mapLinesAllLength f es).symm ▸ few)

theorem expressionsMoved : ∀ {ts es}, Expressions ts es →
    Expressions (ts.map (Token.mapLine f)) (Expr.mapLinesAll f es)
  | _, _, .last item => .last (expressionMoved item)
  | _, _, .more item divider tail => by
    rw [List.map_append]
    exact .more (expressionMoved item) divider (expressionsMoved tail)

theorem primaryMoved : ∀ {ts e}, Primary ts e → Primary (ts.map (Token.mapLine f)) (e.mapLines f)
  | _, _, .number kind => .number kind
  | _, _, .string kind => .string kind
  | _, _, .true kind => .true kind
  | _, _, .false kind => .false kind
  | _, _, .nil kind => .nil kind
  | _, _, .this kind => .this kind
  | _, _, .name kind => .name kind
  | _, _, .grouping before inner after => by
    simp only [List.map_append, List.map_cons]
    exact .grouping before (expressionMoved inner) after
  | _, _, .lambda start before list after inner => by
    simp only [List.map_append, List.map_cons]
    exact .lambda start before (parametersMoved f list) after (blockMoved inner)

theorem blockMoved : ∀ {ts body}, Block ts body → Block (ts.map (Token.mapLine f)) (Stmt.mapLinesAll f body)
  | _, _, .mk before inner after => by
    simp only [List.map_append, List.map_cons]
    exact .mk before (declarationsMoved inner) after

theorem declarationsMoved : ∀ {ts body}, Declarations ts body →
    Declarations (ts.map (Token.mapLine f)) (Stmt.mapLinesAll f body)
  | _, _, .none => .none
  | _, _, .more head tail => by
    rw [List.map_append]
    exact .more (declarationMoved head) (declarationsMoved tail)

theorem declarationMoved : ∀ {ts s}, Declaration ts s → Declaration (ts.map (Token.mapLine f)) (s.mapLines f)
  | _, _, .classDecl start title before inner after => by
    simp only [List.map_append, List.map_cons]
    exact .classDecl start title before (membersMoved inner) after
  | _, _, .subclass start title sign superclass before inner after => by
    simp only [List.map_append, List.map_cons]
    exact .subclass start title sign superclass before (membersMoved inner) after
  | _, _, .funDecl start inner => .funDecl start (functionMoved inner)
  | _, _, .varDecl inner => .varDecl (varDeclMoved inner)
  | _, _, .statement inner => .statement (statementMoved inner)

theorem membersMoved : ∀ {ts methods classMethods}, Members ts methods classMethods →
    Members (ts.map (Token.mapLine f)) (FunctionDecl.mapLinesAll f methods) (FunctionDecl.mapLinesAll f classMethods)
  | _, _, _, .none => .none
  | _, _, _, .method head tail => by
    rw [List.map_append]
    exact .method (functionMoved head) (membersMoved tail)
  | _, _, _, .classMethod start head tail => by
    simp only [List.map_append, List.map_cons]
    exact .classMethod start (functionMoved head) (membersMoved tail)

theorem functionMoved : ∀ {ts decl}, Grammar.Function ts decl →
    Grammar.Function (ts.map (Token.mapLine f)) (decl.mapLines f)
  | _, _, .mk title before list after inner => by
    simp only [List.map_append, List.map_cons]
    exact .mk title before (parametersMoved f list) after (blockMoved inner)

theorem varDeclMoved : ∀ {ts s}, VarDecl ts s → VarDecl (ts.map (Token.mapLine f)) (s.mapLines f)
  | _, _, .bare start title after => .bare start title after
  | _, _, .initialized start title sign inner after => by
    simp only [List.map_append, List.map_cons]
    exact .initialized start title sign (expressionMoved inner) after

theorem expressionStatementMoved : ∀ {ts s}, ExpressionStatement ts s →
    ExpressionStatement (ts.map (Token.mapLine f)) (s.mapLines f)
  | _, _, .mk inner after => by
    rw [List.map_append]
    exact .mk (expressionMoved inner) after

theorem optionalMoved : ∀ {ts value}, OptionalExpression ts value →
    OptionalExpression (ts.map (Token.mapLine f)) (Expr.mapLinesOption f value)
  | _, _, .none => .none
  | _, _, .some inner => .some (expressionMoved inner)

theorem forInitializerMoved : ∀ {ts init}, ForInitializer ts init →
    ForInitializer (ts.map (Token.mapLine f)) (Stmt.mapLinesOption f init)
  | _, _, .none kind => .none kind
  | _, _, .varDecl inner => .varDecl (varDeclMoved inner)
  | _, _, .expression inner => .expression (expressionStatementMoved inner)

theorem statementMoved : ∀ {short ts s}, Statement short ts s →
    Statement short (ts.map (Token.mapLine f)) (s.mapLines f)
  | _, _, _, .expression inner => .expression (expressionStatementMoved inner)
  | _, _, _, .print start inner after => by
    simp only [List.map_append, List.map_cons]
    exact .print start (expressionMoved inner) after
  | _, _, _, .returned start inner after => by
    simp only [List.map_append, List.map_cons]
    exact .returned start (optionalMoved inner) after
  | _, _, _, .block inner => .block (blockMoved inner)
  | _, _, _, .whileLoop start before test after body => by
    simp only [List.map_append, List.map_cons]
    exact .whileLoop start before (expressionMoved test) after (statementMoved body)
  | _, _, _, .ifOnly start before test after first => by
    simp only [List.map_append, List.map_cons]
    exact .ifOnly start before (expressionMoved test) after (statementMoved first)
  | _, _, _, .ifElse start before test after first divider second => by
    simp only [List.map_append, List.map_cons]
    exact .ifElse start before (expressionMoved test) after (statementMoved first) divider (statementMoved second)
  | _, _, _, .forLoop start before first test divider increment after body => by
    rw [forTreeMoved]
    simp only [List.map_append, List.map_cons]
    exact .forLoop start before (forInitializerMoved first) (optionalMoved test) divider (optionalMoved increment) after
      (statementMoved body)

end

theorem programMoved {ts : List Token} {program : List Stmt} (h : Grammar.Program ts program) :
    Grammar.Program (ts.map (Token.mapLine f)) (Stmt.mapLinesAll f program) := by
  obtain ⟨inner, after⟩ := h
  rw [List.map_append]
  exact .mk (declarationsMoved f inner) after

theorem declarationsAppend : ∀ {ts first us second}, Declarations ts first → Declarations us second →
    Declarations (ts ++ us) (first ++ second)
  | _, _, _, _, .none, later => later
  | _, _, _, _, .more head tail, later => by
    rw [List.append_assoc]
    exact .more head (declarationsAppend tail later)

theorem programAppend {ts us : List Token} {last : Token} {first second : List Stmt}
    (before : Grammar.Program (ts ++ [last]) first) (after : Grammar.Program us second) :
    Grammar.Program (ts ++ us) (first ++ second) := by
  generalize whole : ts ++ [last] = tokens at before
  obtain ⟨inner, _⟩ := before
  obtain ⟨rfl, _⟩ := List.append_inj' whole rfl
  obtain ⟨inner', closed⟩ := after
  rw [← List.append_assoc]
  exact .mk (declarationsAppend inner inner') closed

end Grammar
end Treewalk
