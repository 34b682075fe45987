import Treewalk.Proofs.Initializers

/-! Runs of code that has no name `this`. Receivers and classes last, whatever is run and whoever observes it: a run is
never stopped by an observer that lets pass what holds at every instant of such a run. -/
namespace Treewalk

theorem methodListed {closure : FrameId} {isInitializer : FunctionDecl → Bool} {marked : String → Bool}
    (marks : ∀ decl, isInitializer decl = marked decl.label) {decls : List FunctionDecl}
    (spared : "this" ∉ FunctionDecl.wordsAll decls) : Listed marked (methodTable closure isInitializer decls) := by
  have kept : ∀ (decls : List FunctionDecl) (table : Table Function), "this" ∉ FunctionDecl.wordsAll decls →
      Listed marked table → Listed marked
        (decls.foldl (fun table decl => table.insert decl.label ⟨decl, closure, isInitializer decl⟩) table) := by
    intro decls
    induction decls with
    | nil => exact fun table _ before => before
    | cons decl rest ih =>
      intro table spared before
      apply ih _ fun member => spared (List.mem_append_right _ member)
      intro name f found
      rw [Table.findInsert] at found
      split at found
      · rename_i here
        cases found
        exact ⟨fun member => spared (List.mem_append_left _ member), here ▸ marks decl⟩
      · exact before name f found
  exact kept decls .empty spared fun name f found => by simp at found

theorem Advances.withClass {s : Observed} {decl : ClassDecl} (proper : s.machine.heap.Proper)
    (spared : "this" ∉ decl.words) (address : Option Address) (superclass : Option ClassId) :
    Advances s.machine (s.withClass address decl superclass).machine := by
  obtain ⟨_, sparedMethods, sparedOwn⟩ := classSpared spared
  have framed := Advances.addFrame proper s.machine.environment
  have new : (s.classOf decl superclass).Proper :=
    ⟨methodListed (fun _ => rfl) sparedMethods, methodListed (fun _ => rfl) sparedOwn⟩
  exact framed.trans (.addClass framed.proper new)

theorem Heap.Equipped.plain {h : Heap} {decl : FunctionDecl} {closure : FrameId} (spared : "this" ∉ decl.words) :
    h.Equipped ⟨decl, closure, false⟩ :=
  ⟨spared, fun marked => absurd marked Bool.false_ne_true⟩

def initializing : Invariant :=
  .sparing (fun s => s.machine.heap.Proper) (fun s s' => Advances s.machine s'.machine)
    (fun s _ callee => s.machine.heap.EquippedCallee callee) (fun _ _ _ => True)

theorem initializingInductive : initializing.Inductive where
  toParts := Invariant.sparingParts
  toValues := Invariant.sparingValues
  holds moves := moves.proper
  refl proper := .refl proper
  trans first second := first.trans second
  node spared _ := spared
  sees _ _ := trivial
  recorded _ proper _ := .refl proper
  heapKept proper kept := .sameHeap proper kept.heap
  holdsElsewhere away proper := (Advances.sameHeap proper away.heap).proper
  seesElsewhere _ _ := trivial
  callsElsewhere {s m _ callee} away equipped := by
    change m.heap.EquippedCallee callee
    rw [away.heap]
    exact equipped
  movesElsewhere {s s' m m'} away inner back _ _ := by
    have lasts : m.heap.Lasts s'.machine.heap := inner.lasts
    rw [away.heap, ← back.heap] at lasts
    exact ⟨(Advances.sameHeap inner.proper back.heap).proper, lasts⟩
  called _ _ moves _ found _ _ moves' := moves'.lasts.equippedCallee (moves.proper.callee found)
  lambda _ spared := .plain spared
  classMethod proper _ found := proper.foundOwn found
  accessed _ _ _ := trivial
  bound {s id _ _ f} proper _ _ _ _ found := by
    have b := bindEnds proper f id
    exact ⟨b.moves, b.equipped (proper.found found).1⟩
  assigned proper spared _ _ :=
    .defineOther proper (fun same => spared (List.mem_cons.mpr (.inl same.symm))) _
  fieldSet _ proper _ _ := .setField proper _ _ _
  variableDefined proper spared _ :=
    ⟨.defineOther proper (fun same => spared (same ▸ Stmt.nameWord _ _)) _, trivial⟩
  functionMade proper equipped := ⟨.addFunction proper equipped, trivial⟩
  functionDeclared {s _ _ decl} proper spared same := by
    subst same
    have made : Advances s.machine (s.machine.addCallable (.function ⟨decl, s.machine.environment, false⟩)) :=
      .addFunction proper (.plain fun member => spared (List.mem_cons_of_mem _ member))
    have other := fun same => spared (List.mem_cons.mpr (.inl (Eq.symm same)))
    exact ⟨made.trans (.defineOther made.proper other _), trivial⟩
  classDeclared {_ s' _ address _ _ superclass} _ spared _ moves _ same := by
    subst same
    have made := Advances.withClass moves.proper spared address superclass
    exact ⟨made.trans (.defineOther made.proper (classSpared spared).1 _), trivial⟩
  instanceMade proper _ same := by
    subst same
    exact ⟨.addInstance proper _, trivial, trivial⟩
  blockOpened proper spared same := by
    subst same
    exact ⟨.addFrame proper _, spared⟩
  functionOpened proper _ := .addFrame proper _
  parameterBound _ equipped moves member _ :=
    .defineOther moves.proper (fun same => equipped.spared (same ▸ FunctionDecl.paramWord member)) _
  bodyOpened _ equipped moves _ same := by
    subst same
    exact ⟨.addFrame moves.proper _, fun member => equipped.spared (FunctionDecl.bodyWords _ member)⟩

end Treewalk
