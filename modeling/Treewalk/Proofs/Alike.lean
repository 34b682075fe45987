import Treewalk.Syntax.Equal
import Treewalk.Proofs.Renaming
import Treewalk.Proofs.Again
import Treewalk.Proofs.Identity

/-! Equal trees. Two trees are equal if they have one form and equal literals, and nothing in a walk over scopes depends
on a literal. So trees that are equal stay equal when both are resolved; and emptying the slots again leaves what is
equal equal. -/
namespace Treewalk

open Walk

mutual

inductive Expr.Equal : Expr → Expr → Prop where
  | literal {value value' line} (same : (value == value') = true) :
      Expr.Equal (.literal value line) (.literal value' line)
  | unary {op right right' line} (inner : Expr.Equal right right') :
      Expr.Equal (.unary op right line) (.unary op right' line)
  | binary {left left' op right right' line} (first : Expr.Equal left left') (second : Expr.Equal right right') :
      Expr.Equal (.binary left op right line) (.binary left' op right' line)
  | logical {left left' op right right' line} (first : Expr.Equal left left') (second : Expr.Equal right right') :
      Expr.Equal (.logical left op right line) (.logical left' op right' line)
  | ternary {condition condition' thenBranch thenBranch' elseBranch elseBranch' line}
      (first : Expr.Equal condition condition') (second : Expr.Equal thenBranch thenBranch')
      (third : Expr.Equal elseBranch elseBranch') :
      Expr.Equal (.ternary condition thenBranch elseBranch line) (.ternary condition' thenBranch' elseBranch' line)
  | grouping {e e'} (inner : Expr.Equal e e') : Expr.Equal (.grouping e) (.grouping e')
  | var {name depth} : Expr.Equal (.var name depth) (.var name depth)
  | assign {name value value' depth} (inner : Expr.Equal value value') :
      Expr.Equal (.assign name value depth) (.assign name value' depth)
  | call {callee callee' arguments arguments' line} (first : Expr.Equal callee callee')
      (second : Expr.EqualAll arguments arguments') :
      Expr.Equal (.call callee arguments line) (.call callee' arguments' line)
  | get {object object' name} (inner : Expr.Equal object object') : Expr.Equal (.get object name) (.get object' name)
  | set {object object' name value value'} (first : Expr.Equal object object') (second : Expr.Equal value value') :
      Expr.Equal (.set object name value) (.set object' name value')
  | this {keyword depth} : Expr.Equal (.this keyword depth) (.this keyword depth)
  | lambda {decl decl'} (inner : FunctionDecl.Equal decl decl') : Expr.Equal (.lambda decl) (.lambda decl')

inductive Expr.EqualAll : List Expr → List Expr → Prop where
  | nil : Expr.EqualAll [] []
  | cons {e e' rest rest'} (first : Expr.Equal e e') (others : Expr.EqualAll rest rest') :
      Expr.EqualAll (e :: rest) (e' :: rest')

inductive Expr.EqualOption : Option Expr → Option Expr → Prop where
  | none : Expr.EqualOption none none
  | some {e e'} (inner : Expr.Equal e e') : Expr.EqualOption (some e) (some e')

inductive Stmt.Equal : Stmt → Stmt → Prop where
  | expression {value value'} (inner : Expr.Equal value value') : Stmt.Equal (.expression value) (.expression value')
  | print {value value'} (inner : Expr.Equal value value') : Stmt.Equal (.print value) (.print value')
  | varDecl {name initializer initializer'} (inner : Expr.EqualOption initializer initializer') :
      Stmt.Equal (.varDecl name initializer) (.varDecl name initializer')
  | block {body body'} (inner : Stmt.EqualAll body body') : Stmt.Equal (.block body) (.block body')
  | ifElse {condition condition' thenBranch thenBranch' elseBranch elseBranch'} (first : Expr.Equal condition condition')
      (second : Stmt.Equal thenBranch thenBranch') (third : Stmt.EqualOption elseBranch elseBranch') :
      Stmt.Equal (.ifElse condition thenBranch elseBranch) (.ifElse condition' thenBranch' elseBranch')
  | whileLoop {condition condition' body body'} (first : Expr.Equal condition condition')
      (second : Stmt.Equal body body') :
      Stmt.Equal (.whileLoop condition body) (.whileLoop condition' body')
  | funDecl {decl decl'} (inner : FunctionDecl.Equal decl decl') : Stmt.Equal (.funDecl decl) (.funDecl decl')
  | classDecl {decl decl'} (inner : ClassDecl.Equal decl decl') : Stmt.Equal (.classDecl decl) (.classDecl decl')
  | returnStmt {keyword value value'} (inner : Expr.EqualOption value value') :
      Stmt.Equal (.returnStmt keyword value) (.returnStmt keyword value')

inductive Stmt.EqualAll : List Stmt → List Stmt → Prop where
  | nil : Stmt.EqualAll [] []
  | cons {s s' rest rest'} (first : Stmt.Equal s s') (others : Stmt.EqualAll rest rest') :
      Stmt.EqualAll (s :: rest) (s' :: rest')

inductive Stmt.EqualOption : Option Stmt → Option Stmt → Prop where
  | none : Stmt.EqualOption none none
  | some {s s'} (inner : Stmt.Equal s s') : Stmt.EqualOption (some s) (some s')

inductive FunctionDecl.Equal : FunctionDecl → FunctionDecl → Prop where
  | mk {name params body body' line} (inner : Stmt.EqualAll body body') :
      FunctionDecl.Equal ⟨name, params, body, line⟩ ⟨name, params, body', line⟩

inductive FunctionDecl.EqualAll : List FunctionDecl → List FunctionDecl → Prop where
  | nil : FunctionDecl.EqualAll [] []
  | cons {f f' rest rest'} (first : FunctionDecl.Equal f f') (others : FunctionDecl.EqualAll rest rest') :
      FunctionDecl.EqualAll (f :: rest) (f' :: rest')

inductive ClassDecl.Equal : ClassDecl → ClassDecl → Prop where
  | mk {name superclass superclass' methods methods' classMethods classMethods'}
      (first : Expr.EqualOption superclass superclass') (second : FunctionDecl.EqualAll methods methods')
      (third : FunctionDecl.EqualAll classMethods classMethods') :
      ClassDecl.Equal ⟨name, superclass, methods, classMethods⟩ ⟨name, superclass', methods', classMethods'⟩

end

mutual

theorem Expr.Equal.equals : ∀ {e e'}, Expr.Equal e e' → e.equals (· == ·) e' = true
  | _, _, .literal same => by simp [Expr.equals, same]
  | _, _, .unary inner => by simp [Expr.equals, inner.equals]
  | _, _, .binary first second => by simp [Expr.equals, first.equals, second.equals]
  | _, _, .logical first second => by simp [Expr.equals, first.equals, second.equals]
  | _, _, .ternary first second third => by simp [Expr.equals, first.equals, second.equals, third.equals]
  | _, _, .grouping inner => inner.equals
  | _, _, .var => by simp [Expr.equals]
  | _, _, .assign inner => by simp [Expr.equals, inner.equals]
  | _, _, .call first second => by simp [Expr.equals, first.equals, second.equals]
  | _, _, .get inner => by simp [Expr.equals, inner.equals]
  | _, _, .set first second => by simp [Expr.equals, first.equals, second.equals]
  | _, _, .this => by simp [Expr.equals]
  | _, _, .lambda inner => inner.equals

theorem Expr.EqualAll.equals : ∀ {es es'}, Expr.EqualAll es es' → Expr.equalsAll (· == ·) es es' = true
  | _, _, .nil => rfl
  | _, _, .cons first others => by simp [Expr.equalsAll, first.equals, others.equals]

theorem Expr.EqualOption.equals : ∀ {e e'}, Expr.EqualOption e e' → Expr.equalsOption (· == ·) e e' = true
  | _, _, .none => rfl
  | _, _, .some inner => inner.equals

theorem Stmt.Equal.equals : ∀ {s s'}, Stmt.Equal s s' → s.equals (· == ·) s' = true
  | _, _, .expression inner => inner.equals
  | _, _, .print inner => inner.equals
  | _, _, .varDecl inner => by simp [Stmt.equals, inner.equals]
  | _, _, .block inner => inner.equals
  | _, _, .ifElse first second third => by simp [Stmt.equals, first.equals, second.equals, third.equals]
  | _, _, .whileLoop first second => by simp [Stmt.equals, first.equals, second.equals]
  | _, _, .funDecl inner => inner.equals
  | _, _, .classDecl inner => inner.equals
  | _, _, .returnStmt inner => by simp [Stmt.equals, inner.equals]

theorem Stmt.EqualAll.equals : ∀ {body body'}, Stmt.EqualAll body body' → Stmt.equalsAll (· == ·) body body' = true
  | _, _, .nil => rfl
  | _, _, .cons first others => by simp [Stmt.equalsAll, first.equals, others.equals]

theorem Stmt.EqualOption.equals : ∀ {s s'}, Stmt.EqualOption s s' → Stmt.equalsOption (· == ·) s s' = true
  | _, _, .none => rfl
  | _, _, .some inner => inner.equals

theorem FunctionDecl.Equal.equals : ∀ {decl decl'}, FunctionDecl.Equal decl decl' → decl.equals (· == ·) decl' = true
  | _, _, .mk inner => by simp [FunctionDecl.equals, inner.equals]

theorem FunctionDecl.EqualAll.equals : ∀ {decls decls'}, FunctionDecl.EqualAll decls decls' →
    FunctionDecl.equalsAll (· == ·) decls decls' = true
  | _, _, .nil => rfl
  | _, _, .cons first others => by simp [FunctionDecl.equalsAll, first.equals, others.equals]

theorem ClassDecl.Equal.equals : ∀ {decl decl'}, ClassDecl.Equal decl decl' → decl.equals (· == ·) decl' = true
  | _, _, .mk first second third => by simp [ClassDecl.equals, first.equals, second.equals, third.equals]

end

mutual

theorem Expr.equal (e e' : Expr) (same : e.equals (· == ·) e' = true) : Expr.Equal e e' := by
  cases e with
  | literal value line =>
    cases e' with
    | literal value' line' =>
      simp only [Expr.equals, Bool.and_eq_true, beq_iff_eq] at same
      obtain ⟨values, rfl⟩ := same
      exact .literal values
    | _ => cases same
  | unary op right line =>
    cases e' with
    | unary op' right' line' =>
      simp only [Expr.equals, Bool.and_eq_true, beq_iff_eq] at same
      obtain ⟨⟨rfl, inner⟩, rfl⟩ := same
      exact .unary (right.equal right' inner)
    | _ => cases same
  | binary left op right line =>
    cases e' with
    | binary left' op' right' line' =>
      simp only [Expr.equals, Bool.and_eq_true, beq_iff_eq] at same
      obtain ⟨⟨⟨first, rfl⟩, second⟩, rfl⟩ := same
      exact .binary (left.equal left' first) (right.equal right' second)
    | _ => cases same
  | logical left op right line =>
    cases e' with
    | logical left' op' right' line' =>
      simp only [Expr.equals, Bool.and_eq_true, beq_iff_eq] at same
      obtain ⟨⟨⟨first, rfl⟩, second⟩, rfl⟩ := same
      exact .logical (left.equal left' first) (right.equal right' second)
    | _ => cases same
  | ternary condition thenBranch elseBranch line =>
    cases e' with
    | ternary condition' thenBranch' elseBranch' line' =>
      simp only [Expr.equals, Bool.and_eq_true, beq_iff_eq] at same
      obtain ⟨⟨⟨first, second⟩, third⟩, rfl⟩ := same
      exact .ternary (condition.equal condition' first) (thenBranch.equal thenBranch' second)
        (elseBranch.equal elseBranch' third)
    | _ => cases same
  | grouping inner =>
    cases e' with
    | grouping inner' => exact .grouping (inner.equal inner' same)
    | _ => cases same
  | var name depth =>
    cases e' with
    | var name' depth' =>
      simp only [Expr.equals, Bool.and_eq_true, beq_iff_eq] at same
      obtain ⟨rfl, rfl⟩ := same
      exact .var
    | _ => cases same
  | assign name value depth =>
    cases e' with
    | assign name' value' depth' =>
      simp only [Expr.equals, Bool.and_eq_true, beq_iff_eq] at same
      obtain ⟨⟨rfl, inner⟩, rfl⟩ := same
      exact .assign (value.equal value' inner)
    | _ => cases same
  | call callee arguments line =>
    cases e' with
    | call callee' arguments' line' =>
      simp only [Expr.equals, Bool.and_eq_true, beq_iff_eq] at same
      obtain ⟨⟨first, second⟩, rfl⟩ := same
      exact .call (callee.equal callee' first) (Expr.equalAll arguments arguments' second)
    | _ => cases same
  | get object name =>
    cases e' with
    | get object' name' =>
      simp only [Expr.equals, Bool.and_eq_true, beq_iff_eq] at same
      obtain ⟨inner, rfl⟩ := same
      exact .get (object.equal object' inner)
    | _ => cases same
  | set object name value =>
    cases e' with
    | set object' name' value' =>
      simp only [Expr.equals, Bool.and_eq_true, beq_iff_eq] at same
      obtain ⟨⟨first, rfl⟩, second⟩ := same
      exact .set (object.equal object' first) (value.equal value' second)
    | _ => cases same
  | this keyword depth =>
    cases e' with
    | this keyword' depth' =>
      simp only [Expr.equals, Bool.and_eq_true, beq_iff_eq] at same
      obtain ⟨rfl, rfl⟩ := same
      exact .this
    | _ => cases same
  | lambda decl =>
    cases e' with
    | lambda decl' => exact .lambda (decl.equal decl' same)
    | _ => cases same
termination_by structural e

theorem Expr.equalAll (es es' : List Expr) (same : Expr.equalsAll (· == ·) es es' = true) : Expr.EqualAll es es' := by
  cases es with
  | nil =>
    cases es' with
    | nil => exact .nil
    | cons e' rest' => cases same
  | cons e rest =>
    cases es' with
    | nil => cases same
    | cons e' rest' =>
      simp only [Expr.equalsAll, Bool.and_eq_true] at same
      exact .cons (e.equal e' same.1) (Expr.equalAll rest rest' same.2)
termination_by structural es

theorem Expr.equalOption (e e' : Option Expr) (same : Expr.equalsOption (· == ·) e e' = true) :
    Expr.EqualOption e e' := by
  cases e with
  | none =>
    cases e' with
    | none => exact .none
    | some e' => cases same
  | some e =>
    cases e' with
    | none => cases same
    | some e' => exact .some (e.equal e' same)
termination_by structural e

theorem Stmt.equal (s s' : Stmt) (same : s.equals (· == ·) s' = true) : Stmt.Equal s s' := by
  cases s with
  | expression value =>
    cases s' with
    | expression value' => exact .expression (value.equal value' same)
    | _ => cases same
  | print value =>
    cases s' with
    | print value' => exact .print (value.equal value' same)
    | _ => cases same
  | varDecl name initializer =>
    cases s' with
    | varDecl name' initializer' =>
      simp only [Stmt.equals, Bool.and_eq_true, beq_iff_eq] at same
      obtain ⟨rfl, inner⟩ := same
      exact .varDecl (Expr.equalOption initializer initializer' inner)
    | _ => cases same
  | block body =>
    cases s' with
    | block body' => exact .block (Stmt.equalAll body body' same)
    | _ => cases same
  | ifElse condition thenBranch elseBranch =>
    cases s' with
    | ifElse condition' thenBranch' elseBranch' =>
      simp only [Stmt.equals, Bool.and_eq_true] at same
      obtain ⟨⟨first, second⟩, third⟩ := same
      exact .ifElse (condition.equal condition' first) (thenBranch.equal thenBranch' second)
        (Stmt.equalOption elseBranch elseBranch' third)
    | _ => cases same
  | whileLoop condition body =>
    cases s' with
    | whileLoop condition' body' =>
      simp only [Stmt.equals, Bool.and_eq_true] at same
      exact .whileLoop (condition.equal condition' same.1) (body.equal body' same.2)
    | _ => cases same
  | funDecl decl =>
    cases s' with
    | funDecl decl' => exact .funDecl (decl.equal decl' same)
    | _ => cases same
  | classDecl decl =>
    cases s' with
    | classDecl decl' => exact .classDecl (decl.equal decl' same)
    | _ => cases same
  | returnStmt keyword value =>
    cases s' with
    | returnStmt keyword' value' =>
      simp only [Stmt.equals, Bool.and_eq_true, beq_iff_eq] at same
      obtain ⟨rfl, inner⟩ := same
      exact .returnStmt (Expr.equalOption value value' inner)
    | _ => cases same
termination_by structural s

theorem Stmt.equalAll (body body' : List Stmt) (same : Stmt.equalsAll (· == ·) body body' = true) :
    Stmt.EqualAll body body' := by
  cases body with
  | nil =>
    cases body' with
    | nil => exact .nil
    | cons s' rest' => cases same
  | cons s rest =>
    cases body' with
    | nil => cases same
    | cons s' rest' =>
      simp only [Stmt.equalsAll, Bool.and_eq_true] at same
      exact .cons (s.equal s' same.1) (Stmt.equalAll rest rest' same.2)
termination_by structural body

theorem Stmt.equalOption (s s' : Option Stmt) (same : Stmt.equalsOption (· == ·) s s' = true) :
    Stmt.EqualOption s s' := by
  cases s with
  | none =>
    cases s' with
    | none => exact .none
    | some s' => cases same
  | some s =>
    cases s' with
    | none => cases same
    | some s' => exact .some (s.equal s' same)
termination_by structural s

theorem FunctionDecl.equal (decl decl' : FunctionDecl) (same : decl.equals (· == ·) decl' = true) :
    FunctionDecl.Equal decl decl' := by
  obtain ⟨name, params, body, line⟩ := decl
  obtain ⟨name', params', body', line'⟩ := decl'
  simp only [FunctionDecl.equals, Bool.and_eq_true, beq_iff_eq] at same
  obtain ⟨⟨⟨rfl, rfl⟩, inner⟩, rfl⟩ := same
  exact .mk (Stmt.equalAll body body' inner)
termination_by structural decl

theorem FunctionDecl.equalAll (decls decls' : List FunctionDecl)
    (same : FunctionDecl.equalsAll (· == ·) decls decls' = true) : FunctionDecl.EqualAll decls decls' := by
  cases decls with
  | nil =>
    cases decls' with
    | nil => exact .nil
    | cons f' rest' => cases same
  | cons f rest =>
    cases decls' with
    | nil => cases same
    | cons f' rest' =>
      simp only [FunctionDecl.equalsAll, Bool.and_eq_true] at same
      exact .cons (f.equal f' same.1) (FunctionDecl.equalAll rest rest' same.2)
termination_by structural decls

theorem ClassDecl.equal (decl decl' : ClassDecl) (same : decl.equals (· == ·) decl' = true) :
    ClassDecl.Equal decl decl' := by
  obtain ⟨name, superclass, methods, classMethods⟩ := decl
  obtain ⟨name', superclass', methods', classMethods'⟩ := decl'
  simp only [ClassDecl.equals, Bool.and_eq_true, beq_iff_eq] at same
  obtain ⟨⟨⟨rfl, first⟩, second⟩, third⟩ := same
  exact .mk (Expr.equalOption superclass superclass' first) (FunctionDecl.equalAll methods methods' second)
    (FunctionDecl.equalAll classMethods classMethods' third)
termination_by structural decl

end

theorem Program.equalsIff {p q : Program} : p.equals q = true ↔ Stmt.EqualAll p q :=
  ⟨Stmt.equalAll p q, Stmt.EqualAll.equals⟩

namespace Walk
variable {c : ScopeContext}

structure Matched (related : α → α → Prop) (v w : Walk α) (c : ScopeContext) : Prop where
  results : related (v.result c) (w.result c)
  after : v.after c = w.after c

theorem Matched.bind {related : α → α → Prop} {related' : β → β → Prop} {v w : Walk α} {k k' : α → Walk β}
    (first : Matched related v w c) (later : ∀ a a', related a a' → Matched related' (k a) (k' a') (v.after c)) :
    Matched related' (v >>= k) (w >>= k') c := by
  have both := later _ _ first.results
  refine ⟨?_, ?_⟩
  · change related' ((k (v.result c)).result (v.after c)) ((k' (w.result c)).result (w.after c))
    rw [← first.after]
    exact both.results
  · change (k (v.result c)).after (v.after c) = (k' (w.result c)).after (w.after c)
    rw [← first.after]
    exact both.after

theorem Matched.pure {related : α → α → Prop} {a a' : α} (same : related a a') :
    Matched related (Pure.pure a) (Pure.pure a') c :=
  ⟨same, rfl⟩

theorem Matched.since {related : β → β → Prop} {k k' : α → Walk β} (w : Walk α)
    (later : Matched related (k (w.result c)) (k' (w.result c)) (w.after c)) : Matched related (w >>= k) (w >>= k') c :=
  ⟨later.results, later.after⟩

theorem Matched.scope {related : α → α → Prop} {v w : Walk α} {scope : Scope}
    (inner : Matched related v w { c with scopes := scope :: c.scopes }) :
    Matched related (inScope scope v) (inScope scope w) c :=
  .since _ (inner.bind fun _ _ same => .since _ (.pure same))

theorem Matched.function {related : α → α → Prop} {v w : Walk α} {kind : FunctionContext}
    (inner : Matched related v w { c with function := kind }) :
    Matched related (inFunction kind v) (inFunction kind w) c :=
  .since _ (.since _ (inner.bind fun _ _ same => .since _ (.pure same)))

theorem Matched.class {related : α → α → Prop} {v w : Walk α} (inner : Matched related v w { c with inClass := true }) :
    Matched related (inClass v) (inClass w) c :=
  .since _ (.since _ (inner.bind fun _ _ same => .since _ (.pure same)))

end Walk

theorem FunctionDecl.Equal.context {f f' : FunctionDecl} (same : FunctionDecl.Equal f f') :
    f'.methodContext = f.methodContext := by
  cases same
  rfl

theorem Expr.Equal.checked {e e' : Expr} (same : Expr.Equal e e') (name : Ident) :
    checkSuperclass name e' = checkSuperclass name e := by
  cases same <;> rfl

mutual

theorem Expr.Equal.resolve : ∀ {e e'}, Expr.Equal e e' → ∀ c, Matched Expr.Equal e.resolve e'.resolve c
  | _, _, .literal same, _ => .pure (.literal same)
  | _, _, .unary right, c => (right.resolve c).bind fun _ _ inner => .pure (.unary inner)
  | _, _, .binary left right, c =>
    (left.resolve c).bind fun _ _ first => (right.resolve _).bind fun _ _ second => .pure (.binary first second)
  | _, _, .logical left right, c =>
    (left.resolve c).bind fun _ _ first => (right.resolve _).bind fun _ _ second => .pure (.logical first second)
  | _, _, .ternary condition thenBranch elseBranch, c =>
    (condition.resolve c).bind fun _ _ first => (thenBranch.resolve _).bind fun _ _ second =>
      (elseBranch.resolve _).bind fun _ _ third => .pure (.ternary first second third)
  | _, _, .grouping e, c => (e.resolve c).bind fun _ _ inner => .pure (.grouping inner)
  | _, _, .var, _ => .since _ (.since _ (.pure .var))
  | _, _, .assign value, c => (value.resolve c).bind fun _ _ inner => .since _ (.pure (.assign inner))
  | _, _, .call callee arguments, c =>
    (callee.resolve c).bind fun _ _ first => (arguments.resolve _).bind fun _ _ second => .pure (.call first second)
  | _, _, .get object, c => (object.resolve c).bind fun _ _ inner => .pure (.get inner)
  | _, _, .set object value, c =>
    (object.resolve c).bind fun _ _ first => (value.resolve _).bind fun _ _ second => .pure (.set first second)
  | _, _, .this, _ => .since _ (.pure .this)
  | _, _, .lambda decl, c => (decl.resolve .lambda c).bind fun _ _ inner => .pure (.lambda inner)

theorem Expr.EqualAll.resolve : ∀ {es es'}, Expr.EqualAll es es' → ∀ c,
    Matched Expr.EqualAll (Expr.resolveList es) (Expr.resolveList es') c
  | _, _, .nil, _ => .pure .nil
  | _, _, .cons e rest, c =>
    (e.resolve c).bind fun _ _ first => (rest.resolve _).bind fun _ _ others => .pure (.cons first others)

theorem Stmt.Equal.resolve : ∀ {s s'}, Stmt.Equal s s' → ∀ c, Matched Stmt.Equal s.resolve s'.resolve c
  | _, _, .expression value, c => (value.resolve c).bind fun _ _ inner => .pure (.expression inner)
  | _, _, .print value, c => (value.resolve c).bind fun _ _ inner => .pure (.print inner)
  | _, _, .varDecl .none, _ => .since _ (.since _ (.pure (.varDecl .none)))
  | _, _, .varDecl (.some value), _ =>
    .since _ ((value.resolve _).bind fun _ _ inner => .since _ (.pure (.varDecl (.some inner))))
  | _, _, .block body, _ => (body.resolve _).scope.bind fun _ _ inner => .pure (.block inner)
  | _, _, .ifElse condition thenBranch .none, c =>
    (condition.resolve c).bind fun _ _ first => (thenBranch.resolve _).bind fun _ _ second =>
      .pure (.ifElse first second .none)
  | _, _, .ifElse condition thenBranch (.some elseBranch), c =>
    (condition.resolve c).bind fun _ _ first => (thenBranch.resolve _).bind fun _ _ second =>
      (elseBranch.resolve _).bind fun _ _ third => .pure (.ifElse first second (.some third))
  | _, _, .whileLoop condition body, c =>
    (condition.resolve c).bind fun _ _ first => (body.resolve _).bind fun _ _ second => .pure (.whileLoop first second)
  | .funDecl ⟨name, _, _, _⟩, _, .funDecl decl, c => by
    have inner := fun c => decl.resolve .function c
    cases decl
    cases name with
    | none => exact (inner c).bind fun _ _ whole => .pure (.funDecl whole)
    | some name => exact .since _ (.since _ ((inner _).bind fun _ _ whole => .pure (.funDecl whole)))
  | _, _, .classDecl decl, c => (decl.resolve c).bind fun _ _ inner => .pure (.classDecl inner)
  | _, _, .returnStmt .none, _ => .since _ (.pure (.returnStmt .none))
  | _, _, .returnStmt (.some value), _ =>
    .since _ (.since _ ((value.resolve _).bind fun _ _ inner => .pure (.returnStmt (.some inner))))

theorem Stmt.EqualAll.resolve : ∀ {body body'}, Stmt.EqualAll body body' → ∀ c,
    Matched Stmt.EqualAll (Stmt.resolveList body) (Stmt.resolveList body') c
  | _, _, .nil, _ => .pure .nil
  | _, _, .cons s rest, c =>
    (s.resolve c).bind fun _ _ first => (rest.resolve _).bind fun _ _ others => .pure (.cons first others)

theorem FunctionDecl.Equal.resolve : ∀ {decl decl'}, FunctionDecl.Equal decl decl' → ∀ kind c,
    Matched FunctionDecl.Equal (decl.resolve kind) (decl'.resolve kind) c
  | _, _, .mk body, _, _ =>
    .function (.scope (.since _ ((body.resolve _).scope.bind fun _ _ inner => .pure (.mk inner))))

theorem FunctionDecl.EqualAll.resolveMethods : ∀ {decls decls'}, FunctionDecl.EqualAll decls decls' → ∀ c,
    Matched FunctionDecl.EqualAll (FunctionDecl.resolveMethods decls) (FunctionDecl.resolveMethods decls') c
  | _, _, .nil, _ => .pure .nil
  | f :: _, f' :: _, .cons same rest, c => by
    have head : Matched FunctionDecl.Equal (f.resolve f.methodContext) (f'.resolve f'.methodContext) c := by
      rw [same.context]
      exact same.resolve f.methodContext c
    exact head.bind fun _ _ first => (rest.resolveMethods _).bind fun _ _ others => .pure (.cons first others)

theorem FunctionDecl.EqualAll.resolveClassMethods : ∀ {decls decls'}, FunctionDecl.EqualAll decls decls' → ∀ c,
    Matched FunctionDecl.EqualAll (FunctionDecl.resolveClassMethods decls) (FunctionDecl.resolveClassMethods decls') c
  | _, _, .nil, _ => .pure .nil
  | _, _, .cons f rest, c =>
    (f.resolve .classMethod c).bind fun _ _ first => (rest.resolveClassMethods _).bind fun _ _ others =>
      .pure (.cons first others)

theorem Expr.EqualOption.resolveSuperclass : ∀ {e e'}, Expr.EqualOption e e' → ∀ name c,
    Matched Expr.EqualOption (ClassDecl.resolveSuperclass name e) (ClassDecl.resolveSuperclass name e') c
  | _, _, .none, _, _ => .pure .none
  | _, _, .some same, name, c => by
    unfold ClassDecl.resolveSuperclass
    rw [same.checked]
    exact .since _ ((same.resolve _).bind fun _ _ inner => .pure (.some inner))

theorem ClassDecl.Equal.resolve : ∀ {decl decl'}, ClassDecl.Equal decl decl' → ∀ c,
    Matched ClassDecl.Equal decl.resolve decl'.resolve c
  | _, _, .mk superclass methods classMethods, _ =>
    .class (.since _ (.since _ ((superclass.resolveSuperclass _ _).bind fun _ _ first =>
      .scope ((methods.resolveMethods _).bind fun _ _ second =>
        (classMethods.resolveClassMethods _).bind fun _ _ third => .pure (.mk first second third)))))

end

mutual

theorem Expr.Equal.cleared : ∀ {e e'}, Expr.Equal e e' → Expr.Equal e.cleared e'.cleared
  | _, _, .literal same => .literal same
  | _, _, .unary inner => .unary inner.cleared
  | _, _, .binary first second => .binary first.cleared second.cleared
  | _, _, .logical first second => .logical first.cleared second.cleared
  | _, _, .ternary first second third => .ternary first.cleared second.cleared third.cleared
  | _, _, .grouping inner => .grouping inner.cleared
  | _, _, .var => .var
  | _, _, .assign inner => .assign inner.cleared
  | _, _, .call first second => .call first.cleared second.cleared
  | _, _, .get inner => .get inner.cleared
  | _, _, .set first second => .set first.cleared second.cleared
  | _, _, .this => .this
  | _, _, .lambda inner => .lambda inner.cleared

theorem Expr.EqualAll.cleared : ∀ {es es'}, Expr.EqualAll es es' →
    Expr.EqualAll (Expr.clearedAll es) (Expr.clearedAll es')
  | _, _, .nil => .nil
  | _, _, .cons first others => .cons first.cleared others.cleared

theorem Stmt.Equal.cleared : ∀ {s s'}, Stmt.Equal s s' → Stmt.Equal s.cleared s'.cleared
  | _, _, .expression inner => .expression inner.cleared
  | _, _, .print inner => .print inner.cleared
  | _, _, .varDecl .none => .varDecl .none
  | _, _, .varDecl (.some inner) => .varDecl (.some inner.cleared)
  | _, _, .block inner => .block inner.cleared
  | _, _, .ifElse first second .none => .ifElse first.cleared second.cleared .none
  | _, _, .ifElse first second (.some third) => .ifElse first.cleared second.cleared (.some third.cleared)
  | _, _, .whileLoop first second => .whileLoop first.cleared second.cleared
  | _, _, .funDecl inner => .funDecl inner.cleared
  | _, _, .classDecl inner => .classDecl inner.cleared
  | _, _, .returnStmt .none => .returnStmt .none
  | _, _, .returnStmt (.some inner) => .returnStmt (.some inner.cleared)

theorem Stmt.EqualAll.cleared : ∀ {body body'}, Stmt.EqualAll body body' →
    Stmt.EqualAll (Stmt.clearedAll body) (Stmt.clearedAll body')
  | _, _, .nil => .nil
  | _, _, .cons first others => .cons first.cleared others.cleared

theorem FunctionDecl.Equal.cleared : ∀ {decl decl'}, FunctionDecl.Equal decl decl' →
    FunctionDecl.Equal decl.cleared decl'.cleared
  | _, _, .mk inner => .mk inner.cleared

theorem FunctionDecl.EqualAll.cleared : ∀ {decls decls'}, FunctionDecl.EqualAll decls decls' →
    FunctionDecl.EqualAll (FunctionDecl.clearedAll decls) (FunctionDecl.clearedAll decls')
  | _, _, .nil => .nil
  | _, _, .cons first others => .cons first.cleared others.cleared

theorem Expr.EqualOption.cleared : ∀ {e e'}, Expr.EqualOption e e' →
    Expr.EqualOption (ClassDecl.clearedSuperclass e) (ClassDecl.clearedSuperclass e')
  | _, _, .none => .none
  | _, _, .some inner => .some inner.cleared

theorem ClassDecl.Equal.cleared : ∀ {decl decl'}, ClassDecl.Equal decl decl' → ClassDecl.Equal decl.cleared decl'.cleared
  | _, _, .mk first second third => .mk first.cleared second.cleared third.cleared

end

theorem equalsResolved {a b : Program} (proper : Stmt.ProperAll a) (proper' : Stmt.ProperAll b) :
    a.resolve.1.equals b.resolve.1 = a.equals b := by
  rw [Bool.eq_iff_iff, Program.equalsIff, Program.equalsIff]
  constructor
  · intro same
    have before : Stmt.clearedAll a.resolve.1 = a := Stmt.clearedResolvedAll a .outermost proper
    have before' : Stmt.clearedAll b.resolve.1 = b := Stmt.clearedResolvedAll b .outermost proper'
    rw [← before, ← before']
    exact same.cleared
  · exact fun same => (same.resolve .outermost).results

/- Resolution fills slots and does nothing else, so emptying them undoes it; doing it again changes nothing and reports
the same; and programs are equal before it just if they are after it. -/
theorem resolutionOnlyFillsSlots {source source' : String} {a b : Program} (parsed : Source.program source = .ok a)
    (parsed' : Source.program source' = .ok b) :
    Stmt.clearedAll a.resolve.1 = a ∧ Program.resolve a.resolve.1 = a.resolve ∧
      a.resolve.1.equals b.resolve.1 = a.equals b ∧ (a = b ↔ a.resolve.1 = b.resolve.1) := by
  have emptied := Stmt.clearedResolvedAll a .outermost (sourceProper parsed)
  have emptied' := Stmt.clearedResolvedAll b .outermost (sourceProper parsed')
  have again := Stmt.resolveAgainAll a .outermost
  refine ⟨emptied, ?_, equalsResolved (sourceProper parsed) (sourceProper parsed'), ?_⟩
  · exact congrArg (fun (walked : List Stmt × ScopeContext) => (walked.1, walked.2.errors)) again
  · refine ⟨fun same => by rw [same], fun same => ?_⟩
    rw [← emptied, ← emptied']
    exact congrArg Stmt.clearedAll same

def memoText : String := "\x7bvar a; fun f()\x7ba=b; this;\x7d\x7d"

def noteText : String := "\x7bvar a; fun f()\x7ba=c; this;\x7d\x7d"

def memoProgram (name : String) (slot : Depth) : Program :=
  [.block [.varDecl ⟨"a", 1⟩ none, .funDecl ⟨some ⟨"f", 1⟩, [],
    [.expression (.assign ⟨"a", 1⟩ (.var ⟨name, 1⟩ none) slot), .expression (.this ⟨"this", 1⟩ none)], 1⟩]]

theorem memoParsed : Source.program memoText = .ok (memoProgram "b" none) := readAs (by decide +kernel)

theorem noteParsed : Source.program noteText = .ok (memoProgram "c" none) := readAs (by decide +kernel)

theorem memoFilled : Source.program memoText = .ok (memoProgram "b" none) ∧
    Source.program noteText = .ok (memoProgram "c" none) ∧
    Program.resolve (memoProgram "b" (some 2)) = (memoProgram "b" (some 2), [⟨1, "this", .thisOutsideClass⟩]) ∧
    (memoProgram "b" (some 2)).equals (memoProgram "c" (some 2)) = false := by
  obtain ⟨_, again, equal, _⟩ := resolutionOnlyFillsSlots memoParsed noteParsed
  have resolved : (memoProgram "b" none).resolve = (memoProgram "b" (some 2), [⟨1, "this", .thisOutsideClass⟩]) := rfl
  have resolved' : (memoProgram "c" none).resolve = (memoProgram "c" (some 2), [⟨1, "this", .thisOutsideClass⟩]) := rfl
  rw [resolved] at again
  rw [resolved, resolved'] at equal
  exact ⟨memoParsed, noteParsed, again, equal.trans (by decide +kernel)⟩

end Treewalk
