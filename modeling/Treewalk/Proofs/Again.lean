import Treewalk.Proofs.Lexical.Resolution

/-! Resolution of what was resolved. The walk decides nothing by a slot: it fills a slot from the scopes that are open, or
leaves it. So a second walk over the result comes to the same scopes at every node, reports the same and finds every slot
as it would leave it. -/
namespace Treewalk

open Walk

namespace Walk
variable {c : ScopeContext}

theorem sameThen {v w : Walk α} {k k' : α → Walk β} (first : v c = w c)
    (later : k (w.result c) (w.after c) = k' (w.result c) (w.after c)) : (v >>= k) c = (w >>= k') c := by
  change k (v c).1 (v c).2 = k' (w c).1 (w c).2
  rw [first]
  exact later

theorem sameScope {v w : Walk α} {scope : Scope} (inner : v { c with scopes := scope :: c.scopes } =
    w { c with scopes := scope :: c.scopes }) : inScope scope v c = inScope scope w c :=
  sameThen rfl (sameThen inner rfl)

theorem sameFunction {v w : Walk α} {kind : FunctionContext} (inner : v { c with function := kind } =
    w { c with function := kind }) : inFunction kind v c = inFunction kind w c :=
  sameThen rfl (sameThen rfl (sameThen inner rfl))

theorem sameClass {v w : Walk α} (inner : v { c with inClass := true } = w { c with inClass := true }) :
    inClass v c = inClass w c :=
  sameThen rfl (sameThen rfl (sameThen inner rfl))

theorem slotAgain (name : Ident) (old : Depth) (c : ScopeContext) :
    slot name ((slot name old).result c) c = slot name old c := by
  have opened : ∀ old, slot name old c = ((c.scopes.findIdx? (·.contains name.name)).or old, c) := by
    intro old
    unfold slot
    rw [getThen]
    cases c.scopes.findIdx? (·.contains name.name) <;> rfl
  unfold result
  simp only [opened, Option.or_self, ← Option.or_assoc]

theorem thisSlotAgain (keyword : Ident) (old : Depth) (c : ScopeContext) :
    thisSlot keyword ((thisSlot keyword old).result c) c = thisSlot keyword old c := by
  have kept := slotAgain keyword old c
  unfold thisSlot result at *
  simp only [getThen] at *
  split
  · rfl
  · split
    · rfl
    · exact kept

end Walk

mutual

theorem Expr.resolveAgain : ∀ (e : Expr) (c : ScopeContext), (e.resolve.result c).resolve c = e.resolve c
  | .literal _ _, _ => rfl
  | .unary _ right _, c => sameThen (right.resolveAgain c) rfl
  | .binary left _ right _, c => sameThen (left.resolveAgain c) (sameThen (right.resolveAgain _) rfl)
  | .logical left _ right _, c => sameThen (left.resolveAgain c) (sameThen (right.resolveAgain _) rfl)
  | .ternary condition thenBranch elseBranch _, c =>
    sameThen (condition.resolveAgain c) (sameThen (thenBranch.resolveAgain _) (sameThen (elseBranch.resolveAgain _) rfl))
  | .grouping inner, c => sameThen (inner.resolveAgain c) rfl
  | .var name depth, _ => sameThen rfl (sameThen (slotAgain name depth _) rfl)
  | .assign name value depth, c => sameThen (value.resolveAgain c) (sameThen (slotAgain name depth _) rfl)
  | .call callee arguments _, c => sameThen (callee.resolveAgain c) (sameThen (Expr.resolveAgainAll arguments _) rfl)
  | .get object _, c => sameThen (object.resolveAgain c) rfl
  | .set object _ value, c => sameThen (object.resolveAgain c) (sameThen (value.resolveAgain _) rfl)
  | .this keyword depth, c => sameThen (thisSlotAgain keyword depth c) rfl
  | .lambda decl, c => sameThen (decl.resolveAgain .lambda c) rfl
termination_by structural e => e

theorem Expr.resolveAgainAll : ∀ (es : List Expr) (c : ScopeContext),
    Expr.resolveList ((Expr.resolveList es).result c) c = Expr.resolveList es c
  | [], _ => rfl
  | e :: rest, c => sameThen (e.resolveAgain c) (sameThen (Expr.resolveAgainAll rest _) rfl)
termination_by structural es => es

theorem Stmt.resolveAgain : ∀ (s : Stmt) (c : ScopeContext), (s.resolve.result c).resolve c = s.resolve c
  | .expression value, c => sameThen (value.resolveAgain c) rfl
  | .print value, c => sameThen (value.resolveAgain c) rfl
  | .varDecl _ none, _ => rfl
  | .varDecl _ (some initializer), _ => sameThen rfl (sameThen (initializer.resolveAgain _) rfl)
  | .block body, _ => sameThen (sameScope (Stmt.resolveAgainAll body _)) rfl
  | .ifElse condition thenBranch none, c => sameThen (condition.resolveAgain c) (sameThen (thenBranch.resolveAgain _) rfl)
  | .ifElse condition thenBranch (some elseBranch), c =>
    sameThen (condition.resolveAgain c) (sameThen (thenBranch.resolveAgain _) (sameThen (elseBranch.resolveAgain _) rfl))
  | .whileLoop condition body, c => sameThen (condition.resolveAgain c) (sameThen (body.resolveAgain _) rfl)
  | .funDecl ⟨none, params, body, line⟩, c =>
    sameThen (FunctionDecl.resolveAgain ⟨none, params, body, line⟩ .function c) rfl
  | .funDecl ⟨some name, params, body, line⟩, _ =>
    sameThen rfl (sameThen rfl (sameThen (FunctionDecl.resolveAgain ⟨some name, params, body, line⟩ .function _) rfl))
  | .classDecl decl, c => sameThen (decl.resolveAgain c) rfl
  | .returnStmt _ none, _ => rfl
  | .returnStmt _ (some value), _ => sameThen rfl (sameThen rfl (sameThen (value.resolveAgain _) rfl))
termination_by structural s => s

theorem Stmt.resolveAgainAll : ∀ (body : List Stmt) (c : ScopeContext),
    Stmt.resolveList ((Stmt.resolveList body).result c) c = Stmt.resolveList body c
  | [], _ => rfl
  | s :: rest, c => sameThen (s.resolveAgain c) (sameThen (Stmt.resolveAgainAll rest _) rfl)
termination_by structural body => body

theorem FunctionDecl.resolveAgain : ∀ (decl : FunctionDecl) (kind : FunctionContext) (c : ScopeContext),
    ((decl.resolve kind).result c).resolve kind c = decl.resolve kind c
  | ⟨_, _, body, _⟩, _, _ =>
    sameFunction (sameScope (sameThen rfl (sameThen (sameScope (Stmt.resolveAgainAll body _)) rfl)))
termination_by structural decl => decl

theorem FunctionDecl.resolveMethodsAgain : ∀ (decls : List FunctionDecl) (c : ScopeContext),
    FunctionDecl.resolveMethods ((FunctionDecl.resolveMethods decls).result c) c = FunctionDecl.resolveMethods decls c
  | [], _ => rfl
  | f :: rest, c => by
    have head : ((f.resolve f.methodContext).result c).resolve ((f.resolve f.methodContext).result c).methodContext c =
        f.resolve f.methodContext c := by
      rw [contextKept]
      exact f.resolveAgain f.methodContext c
    exact sameThen head (sameThen (FunctionDecl.resolveMethodsAgain rest _) rfl)
termination_by structural decls => decls

theorem FunctionDecl.resolveClassMethodsAgain : ∀ (decls : List FunctionDecl) (c : ScopeContext),
    FunctionDecl.resolveClassMethods ((FunctionDecl.resolveClassMethods decls).result c) c =
      FunctionDecl.resolveClassMethods decls c
  | [], _ => rfl
  | f :: rest, c => sameThen (f.resolveAgain .classMethod c) (sameThen (FunctionDecl.resolveClassMethodsAgain rest _) rfl)
termination_by structural decls => decls

theorem ClassDecl.resolveSuperclassAgain : ∀ (superclass : Option Expr) (name : Ident) (c : ScopeContext),
    ClassDecl.resolveSuperclass name ((ClassDecl.resolveSuperclass name superclass).result c) c =
      ClassDecl.resolveSuperclass name superclass c
  | none, _, _ => rfl
  | some e, name, c => by
    have checked : checkSuperclass name (e.resolve.result ((checkSuperclass name e).after c)) = checkSuperclass name e := by
      cases e <;> rfl
    exact sameThen (congrFun checked c) (sameThen (e.resolveAgain _) rfl)
termination_by structural superclass => superclass

theorem ClassDecl.resolveAgain : ∀ (decl : ClassDecl) (c : ScopeContext),
    (decl.resolve.result c).resolve c = decl.resolve c
  | ⟨name, superclass, methods, classMethods⟩, _ =>
    sameClass (sameThen rfl (sameThen rfl (sameThen (ClassDecl.resolveSuperclassAgain superclass name _)
      (sameScope (sameThen (FunctionDecl.resolveMethodsAgain methods _)
        (sameThen (FunctionDecl.resolveClassMethodsAgain classMethods _) rfl))))))
termination_by structural decl => decl

end

end Treewalk
