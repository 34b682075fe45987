import Treewalk.Proofs.Scoping

/-! Two walks side by side, where the scopes that are open in one of them are a function of those in the other. -/
namespace Treewalk

open Walk

def ScopeContext.moved (f : List Scope → List Scope) (c : ScopeContext) : ScopeContext := { c with scopes := f c.scopes }

def Along (f : List Scope → List Scope) (c : ScopeContext) (w : Walk α) (w' : Walk β) (b : β) : Prop :=
  w' (c.moved f) = (b, (w.after c).moved f)

namespace Along
variable {f : List Scope → List Scope} {c : ScopeContext}

theorem pure {a : α} {b : β} : Along f c (pure a) (pure b) b := rfl

theorem bind {w : Walk α} {w' : Walk β} {b : β} {k : α → Walk γ} {k' : β → Walk δ} {d : δ} (first : Along f c w w' b)
    (second : Along f (w.after c) (k (w.result c)) (k' b) d) : Along f c (w >>= k) (w' >>= k') d := by
  change k' (w' (c.moved f)).1 (w' (c.moved f)).2 = _
  rw [first]
  exact second

theorem inScope {f' : List Scope → List Scope} {w : Walk α} {w' : Walk β} {b : β} {scope : Scope}
    (opens : f' (scope :: c.scopes) = scope :: f c.scopes) (closes : ∀ scopes, (f' scopes).tail = f scopes.tail)
    (inner : Along f' { c with scopes := scope :: c.scopes } w w' b) :
    Along f c (Walk.inScope scope w) (Walk.inScope scope w') b := by
  have run : ∀ (v : Walk β) (d : ScopeContext), Walk.inScope scope v d =
      ((v { d with scopes := scope :: d.scopes }).1, { (v { d with scopes := scope :: d.scopes }).2 with
        scopes := (v { d with scopes := scope :: d.scopes }).2.scopes.tail }) := fun _ _ => rfl
  have opened : ({ c with scopes := scope :: c.scopes } : ScopeContext).moved f' =
      { c.moved f with scopes := scope :: (c.moved f).scopes } :=
    congrArg (fun scopes => { c with scopes := scopes }) opens
  unfold Along at inner ⊢
  rw [run, ← opened, inner]
  exact Prod.ext rfl (congrArg (fun scopes => { w.after _ with scopes := scopes }) (closes _))

theorem inFunction {w : Walk α} {w' : Walk β} {b : β} (kind : FunctionContext)
    (inner : Along f { c with function := kind } w w' b) :
    Along f c (Walk.inFunction kind w) (Walk.inFunction kind w') b := by
  have run : ∀ (v : Walk β) (d : ScopeContext), Walk.inFunction kind v d = ((v { d with function := kind }).1,
      { (v { d with function := kind }).2 with function := d.function }) := fun _ _ => rfl
  unfold Along at inner ⊢
  rw [run]
  exact congrArg (fun (walked : β × ScopeContext) => (walked.1, { walked.2 with function := c.function })) inner

theorem inClass {w : Walk α} {w' : Walk β} {b : β} (inner : Along f { c with inClass := true } w w' b) :
    Along f c (Walk.inClass w) (Walk.inClass w') b := by
  have run : ∀ (v : Walk β) (d : ScopeContext), Walk.inClass v d = ((v { d with inClass := true }).1,
      { (v { d with inClass := true }).2 with inClass := d.inClass }) := fun _ _ => rfl
  unfold Along at inner ⊢
  rw [run]
  exact congrArg (fun (walked : β × ScopeContext) => (walked.1, { walked.2 with inClass := c.inClass })) inner

theorem thisSlot {keyword : Ident} {found : Depth} (goes : Along f c (slot keyword none) (slot keyword none) found) :
    Along f c (Walk.thisSlot keyword none) (Walk.thisSlot keyword none) none ∧
      (Walk.thisSlot keyword none).result c = none ∨
    Along f c (Walk.thisSlot keyword none) (Walk.thisSlot keyword none) found ∧
      (Walk.thisSlot keyword none).result c = (slot keyword none).result c := by
  obtain ⟨scopes, kind, within, errors⟩ := c
  cases within with
  | false => exact .inl ⟨rfl, rfl⟩
  | true =>
    cases other : kind == .classMethod with
    | true =>
      cases beq_iff_eq.mp other
      exact .inl ⟨rfl, rfl⟩
    | false =>
      have plain : ∀ scopes' : List Scope, Walk.thisSlot keyword none ⟨scopes', kind, true, errors⟩ =
          slot keyword none ⟨scopes', kind, true, errors⟩ := by
        intro scopes'
        have opened : Walk.thisSlot keyword none ⟨scopes', kind, true, errors⟩ = (if kind == .classMethod then
            (do report keyword .thisInClassMethod; return none) else slot keyword none : Walk Depth)
            ⟨scopes', kind, true, errors⟩ := rfl
        rw [opened, other]
        rfl
      refine .inr ⟨?_, congrArg Prod.fst (plain scopes)⟩
      unfold Along after ScopeContext.moved at goes ⊢
      rw [plain, plain]
      exact goes

theorem checkReturn (keyword : Ident) : Along f c (Walk.checkReturn keyword) (Walk.checkReturn keyword) () := by
  obtain ⟨scopes, kind, within, errors⟩ := c
  cases kind <;> rfl

theorem checkReturnValue (keyword : Ident) :
    Along f c (Walk.checkReturnValue keyword) (Walk.checkReturnValue keyword) () := by
  obtain ⟨scopes, kind, within, errors⟩ := c
  cases kind <;> rfl

end Along
end Treewalk
