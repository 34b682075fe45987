import Treewalk.Proofs.Along
import Treewalk.Proofs.Proper
import Treewalk.Proofs.Lexical.Resolution
import Treewalk.Proofs.Twins

/-! A scope in which nothing is declared. A walk that has it among its scopes and one that does without it come to trees
that are alike: no slot leads to it, and the slots that lead past it are one less in the second. -/
namespace Treewalk

open Walk

def skip (depth : Nat) (scopes : List Scope) : List Scope := scopes.eraseIdx depth

def Layer.around (depth : Nat) (layers : List Layer) : List Layer :=
  List.replicate depth (.shared false) ++ .extra :: layers

/- The scope at this depth is empty. While it is the innermost one, the next is complete: a name that is read there is
not in its own initializer. -/
structure Gap (depth : Nat) (layers : List Layer) (c : ScopeContext) : Prop where
  plain : Layer.Plain layers
  empty : c.scopes[depth]? = some .empty
  complete : depth = 0 → ∀ scope, c.scopes[1]? = some scope → ∀ name, scope.find? name ≠ some false

def Skips (depth : Nat) (layers : List Layer) (c : ScopeContext) (like : List Layer → α → α → Prop) (w : Walk α) : Prop :=
  ∃ b, Along (skip depth) c w w b ∧ like (Layer.around depth layers) (w.result c) b

section Steps
variable {depth : Nat} {layers : List Layer} {c : ScopeContext}

theorem skipInner (scope : Scope) (scopes : List Scope) :
    skip (depth + 1) (scope :: scopes) = scope :: skip depth scopes :=
  rfl

theorem Gap.introduced (gap : Gap depth layers c) {names : List String} {c' : ScopeContext} (moves : Introduces names c c')
    (outside : depth = 0 → names = []) : Gap depth layers c' := by
  have kept : depth = 0 → c'.scopes = c.scopes := by
    intro first
    rw [moves.scopes, outside first, introduceNone]
  refine ⟨gap.plain, ?_, fun first => by rw [kept first]; exact gap.complete first⟩
  cases depth with
  | zero => rw [kept rfl]; exact gap.empty
  | succ depth =>
    have empty := gap.empty
    rw [moves.scopes]
    cases scopes : c.scopes with
    | nil =>
      rw [scopes] at empty
      cases empty
    | cons scope outer =>
      rw [scopes] at empty
      exact empty

theorem Gap.steady (gap : Gap depth layers c) {w : Walk α} (steady : w.Steady) : Gap depth layers (w.after c) :=
  gap.introduced (steady c) fun _ => rfl

theorem Gap.enter (gap : Gap depth layers c) (scope : Scope) :
    Gap (depth + 1) layers { c with scopes := scope :: c.scopes } :=
  ⟨gap.plain, gap.empty, fun first => absurd first (Nat.succ_ne_zero depth)⟩

theorem Gap.inner (gap : Gap (depth + 1) layers c) : ∃ scope outer, c.scopes = scope :: outer := by
  have empty := gap.empty
  cases scopes : c.scopes with
  | nil =>
    rw [scopes] at empty
    cases empty
  | cons scope outer => exact ⟨scope, outer, rfl⟩

theorem Gap.declaring (gap : Gap (depth + 1) layers c) (name : Ident) : Gap (depth + 1) layers ((declare name).after c) := by
  obtain ⟨scopes, kind, within, errors⟩ := c
  obtain ⟨scope, outer, rfl⟩ := gap.inner
  refine ⟨gap.plain, ?_, fun first => absurd first (Nat.succ_ne_zero depth)⟩
  rw [declareAfter]
  dsimp only
  split
  · exact gap.empty
  · exact gap.empty

theorem useSkips (plain : Layer.Plain layers) {scopes : List Scope} (name : Ident) (empty : scopes[depth]? = some .empty) :
    UseLike .same (Layer.around depth layers) name (scopes.findIdx? (·.contains name.name)) name
      ((skip depth scopes).findIdx? (·.contains name.name)) := by
  induction depth generalizing scopes with
  | zero =>
    cases scopes with
    | nil => cases empty
    | cons scope outer =>
      cases Option.some.inj empty
      rw [List.findIdx?_cons]
      change UseLike _ _ _ ((outer.findIdx? (·.contains name.name)).map (· + 1)) _
        (outer.findIdx? (·.contains name.name))
      cases outer.findIdx? (·.contains name.name) with
      | none => exact ⟨rfl, rfl⟩
      | some index => exact ⟨index, false, Layer.shiftPlain plain index, rfl, rfl, Bool.noConfusion⟩
  | succ depth ih =>
    cases scopes with
    | nil => cases empty
    | cons scope outer =>
      rw [skipInner, List.findIdx?_cons, List.findIdx?_cons]
      cases scope.contains name.name with
      | true => exact ⟨0, false, rfl, rfl, rfl, Bool.noConfusion⟩
      | false =>
        have inner := ih (show outer[depth]? = some .empty from empty)
        revert inner
        change UseLike _ _ _ _ _ _ → UseLike _ _ _ ((outer.findIdx? (·.contains name.name)).map (· + 1)) _
          (((skip depth outer).findIdx? (·.contains name.name)).map (· + 1))
        cases outer.findIdx? (·.contains name.name) with
        | none =>
          intro ⟨missing, _⟩
          rw [missing]
          exact ⟨rfl, rfl⟩
        | some index =>
          intro ⟨index', renamed, shifted, found, spelled, known⟩
          rw [found]
          refine ⟨index' + 1, renamed, ?_, rfl, spelled, known⟩
          exact congrArg (Option.map fun (found : Nat × Bool) => (found.1 + 1, found.2)) shifted

theorem slotSkips (gap : Gap depth layers c) (name : Ident) :
    Skips depth layers c (fun layers first second => UseLike .same layers name first name second) (slot name none) := by
  refine ⟨(skip depth c.scopes).findIdx? (·.contains name.name), ?_, ?_⟩
  · unfold Along
    rw [slotAfter]
    exact Prod.ext (slotResult _ _) (slotAfter _ none _)
  · rw [slotResult]
    exact useSkips gap.plain name gap.empty

theorem initializedSkips (gap : Gap depth layers c) (name : Ident) :
    Along (skip depth) c (checkInitialized name) (checkInitialized name) () := by
  obtain ⟨scopes, kind, within, errors⟩ := c
  have empty : scopes[depth]? = some .empty := gap.empty
  cases depth with
  | zero =>
    cases scopes with
    | nil => cases empty
    | cons scope outer =>
      cases Option.some.inj empty
      cases outer with
      | nil => rfl
      | cons next outer =>
        have complete : (next.find? name.name == some false) = false :=
          beq_eq_false_iff_ne.mpr (gap.complete rfl next rfl name.name)
        change (if next.find? name.name == some false then _ else pure () : Walk Unit) _ = _
        rw [complete]
        rfl
  | succ depth =>
    cases scopes with
    | nil => cases empty
    | cons scope outer =>
      change (if scope.find? name.name == some false then _ else pure () : Walk Unit) _ =
        ((), ScopeContext.moved _ ((if scope.find? name.name == some false then _ else pure () : Walk Unit).after _))
      cases scope.find? name.name == some false <;> rfl

theorem thisSkips (gap : Gap depth layers c) (keyword : Ident) :
    Skips depth layers c (fun layers first second => UseLike .same layers keyword first keyword second)
      (thisSlot keyword none) := by
  obtain ⟨slot', goes, like⟩ := slotSkips gap keyword
  rcases goes.thisSlot with ⟨goes, same⟩ | ⟨goes, same⟩
  · refine ⟨none, goes, ?_⟩
    rw [same]
    exact ⟨rfl, rfl⟩
  · refine ⟨slot', goes, ?_⟩
    rw [same]
    exact like

theorem declareSkips (gap : Gap (depth + 1) layers c) (name : Ident) :
    Along (skip (depth + 1)) c (declare name) (declare name) () := by
  obtain ⟨scopes, kind, within, errors⟩ := c
  obtain ⟨scope, outer, rfl⟩ := gap.inner
  refine Prod.ext rfl ((declareAfter name _).trans ?_)
  rw [declareAfter]
  change (if scope.contains name.name = true then _ else _) =
    ScopeContext.moved _ (if scope.contains name.name = true then _ else _)
  split <;> rfl

theorem defineSkips (gap : Gap (depth + 1) layers c) (name : Ident) :
    Along (skip (depth + 1)) c (define name) (define name) () := by
  obtain ⟨scopes, kind, within, errors⟩ := c
  obtain ⟨scope, outer, rfl⟩ := gap.inner
  rfl

theorem namedSkips (gap : Gap (depth + 1) layers c) (name : Ident) {w : Walk α} {b : α}
    (inner : Along (skip (depth + 1)) ((define name).after ((declare name).after c)) w w b) :
    Along (skip (depth + 1)) c (do declare name; define name; w) (do declare name; define name; w) b := by
  have declared : Gap (depth + 1) layers ((declare name).after c) := gap.declaring name
  exact (declareSkips gap name).bind ((defineSkips declared name).bind inner)

theorem declareAllSkips (gap : Gap (depth + 1) layers c) (params : List Ident) :
    Along (skip (depth + 1)) c (declareAll params) (declareAll params) () := by
  induction params generalizing c with
  | nil => rfl
  | cons name params ih =>
    have named := gap.introduced (movesDeclaredAlone name c) fun first => absurd first (Nat.succ_ne_zero _)
    exact namedSkips gap name (ih named)

theorem superclassSkips (name : Ident) (e : Expr) :
    Along (skip depth) c (checkSuperclass name e) (checkSuperclass name e) () := by
  cases e with
  | var superclass slot =>
    change Along _ _ (if superclass.name == name.name then report superclass .inheritsFromItself else pure ())
      (if superclass.name == name.name then report superclass .inheritsFromItself else pure ()) _
    cases superclass.name == name.name <;> rfl
  | _ => rfl

theorem Along.opening {w : Walk α} {b : α} (scope : Scope)
    (inner : Along (skip (depth + 1)) { c with scopes := scope :: c.scopes } w w b) :
    Along (skip depth) c (Walk.inScope scope w) (Walk.inScope scope w) b := by
  refine .inScope (skipInner scope c.scopes) ?_ inner
  intro scopes
  cases scopes with
  | nil => rfl
  | cons head tail => rfl

end Steps

mutual

theorem Expr.skips {layers : List Layer} : ∀ (e : Expr) {depth : Nat} {c : ScopeContext}, Gap depth layers c → e.Proper →
    Skips depth layers c (Expr.Like .same) e.resolve
  | .literal _ _, _, _, _, _ => ⟨_, .pure, rfl⟩
  | .unary _ right _, _, _, gap, proper => by
    obtain ⟨_, goes, like⟩ := right.skips gap proper
    exact ⟨_, goes.bind .pure, _, rfl, like⟩
  | .binary left _ right _, _, _, gap, proper => by
    obtain ⟨_, goes, like⟩ := left.skips gap proper.1
    obtain ⟨_, goes', like'⟩ := right.skips (gap.steady left.resolveSteady) proper.2
    exact ⟨_, goes.bind (goes'.bind .pure), _, _, rfl, like, like'⟩
  | .logical left _ right _, _, _, gap, proper => by
    obtain ⟨_, goes, like⟩ := left.skips gap proper.1
    obtain ⟨_, goes', like'⟩ := right.skips (gap.steady left.resolveSteady) proper.2
    exact ⟨_, goes.bind (goes'.bind .pure), _, _, rfl, like, like'⟩
  | .ternary condition thenBranch elseBranch _, _, _, gap, proper => by
    have gapThen := gap.steady condition.resolveSteady
    obtain ⟨_, goes, like⟩ := condition.skips gap proper.1
    obtain ⟨_, goes', like'⟩ := thenBranch.skips gapThen proper.2.1
    obtain ⟨_, goes'', like''⟩ := elseBranch.skips (gapThen.steady thenBranch.resolveSteady) proper.2.2
    exact ⟨_, goes.bind (goes'.bind (goes''.bind .pure)), _, _, _, rfl, like, like', like''⟩
  | .grouping inner, _, _, gap, proper => by
    obtain ⟨_, goes, like⟩ := inner.skips gap proper
    exact ⟨_, goes.bind .pure, _, rfl, like⟩
  | .var name depth, _, _, gap, proper => by
    obtain ⟨_, rfl⟩ := proper
    obtain ⟨_, goes, like⟩ := slotSkips (gap.steady (steadyCheckInitialized name)) name
    exact ⟨_, (initializedSkips gap name).bind (goes.bind .pure), _, _, rfl, like⟩
  | .assign name value depth, _, _, gap, proper => by
    obtain ⟨_, rfl, proper⟩ := proper
    obtain ⟨_, goes, like⟩ := value.skips gap proper
    obtain ⟨_, goes', like'⟩ := slotSkips (gap.steady value.resolveSteady) name
    exact ⟨_, goes.bind (goes'.bind .pure), _, _, _, rfl, like', like⟩
  | .call callee arguments _, _, _, gap, proper => by
    obtain ⟨_, goes, like⟩ := callee.skips gap proper.1
    obtain ⟨_, goes', like'⟩ := Expr.skipsAll arguments (gap.steady callee.resolveSteady) proper.2
    exact ⟨_, goes.bind (goes'.bind .pure), _, _, rfl, like, like'⟩
  | .get object _, _, _, gap, proper => by
    obtain ⟨_, goes, like⟩ := object.skips gap proper
    exact ⟨_, goes.bind .pure, _, rfl, like⟩
  | .set object _ value, _, _, gap, proper => by
    obtain ⟨_, goes, like⟩ := object.skips gap proper.1
    obtain ⟨_, goes', like'⟩ := value.skips (gap.steady object.resolveSteady) proper.2
    exact ⟨_, goes.bind (goes'.bind .pure), _, _, rfl, like, like'⟩
  | .this keyword depth, _, _, gap, proper => by
    obtain ⟨_, rfl⟩ := proper
    obtain ⟨_, goes, like⟩ := thisSkips gap keyword
    exact ⟨_, goes.bind .pure, _, _, rfl, like⟩
  | .lambda decl, _, _, gap, proper => by
    obtain ⟨_, goes, like⟩ := decl.skips .lambda gap proper
    exact ⟨_, goes.bind .pure, _, rfl, like⟩
termination_by structural e => e

theorem Expr.skipsAll {layers : List Layer} : ∀ (es : List Expr) {depth : Nat} {c : ScopeContext},
    Gap depth layers c → Expr.ProperAll es →
    Skips depth layers c (Expr.LikeAll .same) (Expr.resolveList es)
  | [], _, _, _, _ => ⟨_, .pure, rfl⟩
  | e :: rest, _, _, gap, proper => by
    obtain ⟨_, goes, like⟩ := e.skips gap proper.1
    obtain ⟨_, goes', like'⟩ := Expr.skipsAll rest (gap.steady e.resolveSteady) proper.2
    exact ⟨_, goes.bind (goes'.bind .pure), _, _, rfl, like, like'⟩
termination_by structural es => es

theorem Stmt.skips {layers : List Layer} : ∀ (s : Stmt) {depth : Nat} {c : ScopeContext}, Gap depth layers c → s.Proper →
    (depth = 0 → s.declares = []) → Skips depth layers c (Stmt.Like .same) s.resolve
  | .expression value, _, _, gap, proper, _ => by
    obtain ⟨_, goes, like⟩ := value.skips gap proper
    exact ⟨_, goes.bind .pure, _, rfl, like⟩
  | .print value, _, _, gap, proper, _ => by
    obtain ⟨_, goes, like⟩ := value.skips gap proper
    exact ⟨_, goes.bind .pure, _, rfl, like⟩
  | .varDecl name none, 0, _, _, _, plain => absurd (plain rfl) (List.cons_ne_nil _ _)
  | .varDecl name none, _ + 1, _, gap, _, _ => ⟨_, namedSkips gap name .pure, false, rfl, rfl⟩
  | .varDecl name (some initializer), 0, _, _, _, plain => absurd (plain rfl) (List.cons_ne_nil _ _)
  | .varDecl name (some initializer), _ + 1, _, gap, proper, _ => by
    have declared := gap.declaring name
    obtain ⟨_, goes, like⟩ := initializer.skips declared proper.2
    have defined := defineSkips (declared.steady initializer.resolveSteady) name
    exact ⟨_, (declareSkips gap name).bind (goes.bind (defined.bind .pure)), false, _, rfl, rfl, like⟩
  | .block body, _, _, gap, proper, _ => by
    obtain ⟨_, goes, like⟩ := Stmt.skipsAll body (gap.enter .empty) proper
    exact ⟨_, (goes.opening .empty).bind .pure, false, _, rfl, like⟩
  | .ifElse condition thenBranch none, _, _, gap, proper, _ => by
    obtain ⟨_, goes, like⟩ := condition.skips gap proper.1
    obtain ⟨_, goes', like'⟩ := thenBranch.skips (gap.steady condition.resolveSteady) proper.2.1 fun _ => proper.2.2
    exact ⟨_, goes.bind (goes'.bind .pure), _, _, rfl, like, like'⟩
  | .ifElse condition thenBranch (some elseBranch), _, _, gap, proper, _ => by
    have gapThen := gap.steady condition.resolveSteady
    have gapElse := gapThen.introduced (thenBranch.resolveMoves _) fun _ => proper.2.2.1
    obtain ⟨_, goes, like⟩ := condition.skips gap proper.1
    obtain ⟨_, goes', like'⟩ := thenBranch.skips gapThen proper.2.1 fun _ => proper.2.2.1
    obtain ⟨_, goes'', like''⟩ := elseBranch.skips gapElse proper.2.2.2.1 fun _ => proper.2.2.2.2
    exact ⟨_, goes.bind (goes'.bind (goes''.bind .pure)), _, _, _, rfl, like, like', like''⟩
  | .whileLoop condition body, _, _, gap, proper, _ => by
    obtain ⟨_, goes, like⟩ := condition.skips gap proper.1
    obtain ⟨_, goes', like'⟩ := body.skips (gap.steady condition.resolveSteady) proper.2.1 fun _ => proper.2.2
    exact ⟨_, goes.bind (goes'.bind .pure), _, _, rfl, like, like'⟩
  | .funDecl ⟨none, _, _, _⟩, _, _, _, proper, _ => absurd rfl proper.1
  | .funDecl ⟨some name, params, body, line⟩, 0, _, _, _, plain => absurd (plain rfl) (List.cons_ne_nil _ _)
  | .funDecl ⟨some name, params, body, line⟩, _ + 1, c, gap, proper, _ => by
    have named := gap.introduced (movesDeclaredAlone name c) fun first => absurd first (Nat.succ_ne_zero _)
    obtain ⟨_, goes, like⟩ := FunctionDecl.skips ⟨some name, params, body, line⟩ .function named proper.2
    exact ⟨_, namedSkips gap name (goes.bind .pure), _, false, rfl, rfl, rfl, like⟩
  | .classDecl ⟨name, superclass, methods, classMethods⟩, 0, _, _, _, plain => absurd (plain rfl) (List.cons_ne_nil _ _)
  | .classDecl decl, _ + 1, _, gap, proper, _ => by
    obtain ⟨_, goes, like⟩ := decl.skips gap proper
    exact ⟨_, goes.bind .pure, _, false, rfl, rfl, rfl, like⟩
  | .returnStmt keyword none, _, _, _, _, _ => ⟨_, Along.bind (.checkReturn keyword) .pure, rfl⟩
  | .returnStmt keyword (some value), _, _, gap, proper, _ => by
    have gapValue := (gap.steady (steadyCheckReturn keyword)).steady (steadyCheckReturnValue keyword)
    obtain ⟨_, goes, like⟩ := value.skips gapValue proper
    exact ⟨_, Along.bind (.checkReturn keyword) (.bind (.checkReturnValue keyword) (goes.bind .pure)), _, rfl, like⟩
termination_by structural s => s

theorem Stmt.skipsAll {layers : List Layer} : ∀ (body : List Stmt) {depth : Nat} {c : ScopeContext},
    Gap (depth + 1) layers c → Stmt.ProperAll body →
    Skips (depth + 1) layers c (Stmt.LikeAll .same) (Stmt.resolveList body)
  | [], _, _, _, _ => ⟨_, .pure, rfl⟩
  | s :: rest, _, _, gap, proper => by
    obtain ⟨_, goes, like⟩ := s.skips gap proper.1 fun first => absurd first (Nat.succ_ne_zero _)
    have gapRest := gap.introduced (s.resolveMoves _) fun first => absurd first (Nat.succ_ne_zero _)
    obtain ⟨_, goes', like'⟩ := Stmt.skipsAll rest gapRest proper.2
    exact ⟨_, goes.bind (goes'.bind .pure), _, _, rfl, like, like'⟩
termination_by structural body => body

theorem FunctionDecl.skips {layers : List Layer} :
    ∀ (decl : FunctionDecl) (kind : FunctionContext) {depth : Nat} {c : ScopeContext},
    Gap depth layers c → decl.Proper → Skips depth layers c (FunctionDecl.Like .same) (decl.resolve kind)
  | ⟨name, params, body, line⟩, kind, _, c, gap, proper => by
    have gapParams : Gap _ layers { c with function := kind, scopes := .empty :: c.scopes } :=
      Gap.enter (c := { c with function := kind }) ⟨gap.plain, gap.empty, gap.complete⟩ .empty
    have gapDeclared := gapParams.introduced (movesDeclareAll params _) fun first => absurd first (Nat.succ_ne_zero _)
    obtain ⟨_, goes, like⟩ := Stmt.skipsAll body (gapDeclared.enter .empty) proper.2
    have params' := Spelling.same.identsKept params
    exact ⟨_, .inFunction kind (.opening .empty ((declareAllSkips gapParams params).bind ((goes.opening .empty).bind .pure))),
      false, false, _, congrArg (FunctionDecl.mk name · _ line) params'.symm, like⟩
termination_by structural decl => decl

theorem FunctionDecl.skipsMethods {layers : List Layer} :
    ∀ (decls : List FunctionDecl) {depth : Nat} {c : ScopeContext}, Gap depth layers c →
    FunctionDecl.ProperAll decls → Skips depth layers c (FunctionDecl.LikeAll .same) (FunctionDecl.resolveMethods decls)
  | [], _, _, _, _ => ⟨_, .pure, rfl⟩
  | f :: rest, _, _, gap, proper => by
    obtain ⟨_, goes, like⟩ := f.skips f.methodContext gap proper.1
    obtain ⟨_, goes', like'⟩ := FunctionDecl.skipsMethods rest (gap.steady (f.resolveSteady _)) proper.2
    exact ⟨_, goes.bind (goes'.bind .pure), _, _, rfl, like, like'⟩
termination_by structural decls => decls

theorem FunctionDecl.skipsClassMethods {layers : List Layer} :
    ∀ (decls : List FunctionDecl) {depth : Nat} {c : ScopeContext}, Gap depth layers c →
    FunctionDecl.ProperAll decls →
    Skips depth layers c (FunctionDecl.LikeAll .same) (FunctionDecl.resolveClassMethods decls)
  | [], _, _, _, _ => ⟨_, .pure, rfl⟩
  | f :: rest, _, _, gap, proper => by
    obtain ⟨_, goes, like⟩ := f.skips .classMethod gap proper.1
    obtain ⟨_, goes', like'⟩ := FunctionDecl.skipsClassMethods rest (gap.steady (f.resolveSteady _)) proper.2
    exact ⟨_, goes.bind (goes'.bind .pure), _, _, rfl, like, like'⟩
termination_by structural decls => decls

theorem ClassDecl.skipsSuperclass {layers : List Layer} (name : Ident) :
    ∀ (superclass : Option Expr) {depth : Nat} {c : ScopeContext},
    Gap depth layers c → (∀ e, superclass = some e → e.Proper) →
    Skips depth layers c (ClassDecl.LikeSuperclass .same) (ClassDecl.resolveSuperclass name superclass)
  | none, _, _, _, _ => ⟨_, .pure, rfl⟩
  | some e, _, _, gap, proper => by
    obtain ⟨_, goes, like⟩ := e.skips (gap.steady (steadyCheckSuperclass name e)) (proper e rfl)
    exact ⟨_, (superclassSkips name e).bind (goes.bind .pure), _, rfl, like⟩
termination_by structural superclass => superclass

theorem ClassDecl.skips {layers : List Layer} : ∀ (decl : ClassDecl) {depth : Nat} {c : ScopeContext},
    Gap (depth + 1) layers c → decl.Proper →
    Skips (depth + 1) layers c (ClassDecl.Like .same) decl.resolve
  | ⟨name, superclass, methods, classMethods⟩, depth, c, gap, proper => by
    have gap₁ : Gap (depth + 1) layers { c with inClass := true } := ⟨gap.plain, gap.empty, gap.complete⟩
    have gap₂ := gap₁.introduced (movesDeclaredAlone name _) fun first => absurd first (Nat.succ_ne_zero _)
    have proper₂ : ∀ e, superclass = some e → e.Proper := by
      intro e given
      obtain ⟨ident, rfl, other⟩ := proper.1 e given
      exact ⟨other, rfl⟩
    obtain ⟨_, goes, like⟩ := ClassDecl.skipsSuperclass name superclass gap₂ proper₂
    have gap₃ := (gap₂.steady (ClassDecl.resolveSuperclassSteady name superclass)).enter .ofThis
    obtain ⟨_, goes', like'⟩ := FunctionDecl.skipsMethods methods gap₃ proper.2.1.1
    obtain ⟨_, goes'', like''⟩ := FunctionDecl.skipsClassMethods classMethods
      (gap₃.steady (FunctionDecl.resolveMethodsSteady methods)) proper.2.1.2
    exact ⟨_, .inClass (namedSkips gap₁ name (goes.bind (.opening .ofThis (goes'.bind (goes''.bind .pure))))),
      _, _, _, rfl, like, like', like''⟩
termination_by structural decl => decl

end
end Treewalk
