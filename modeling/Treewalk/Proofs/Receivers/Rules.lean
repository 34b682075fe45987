import Treewalk.Proofs.Receivers

/-! Every run keeps track of receivers. A step that binds a method adds a frame with `this` and nothing else does, as long
as the code that is run has no such name. -/
namespace Treewalk

section Binding
variable {s : Observed}

theorem Proceeds.bindThis (tracked : Tracked s) (f : Function) (origin : Option Address) (receiver : InstanceId) :
    Proceeds s (s.bindThis f origin receiver) := by
  have other : ∀ index outer, siteOf (origin.map List.tail) .receiver ≠ some ⟨.method index :: outer, .parameters⟩ := by
    intro index outer same
    obtain ⟨_, _, made⟩ := Option.map_eq_some_iff.mp same
    cases made
  have added : Proceeds s (s.addFrame f.closure (siteOf (origin.map List.tail) .receiver)) :=
    .addFrame tracked fun index outer same => absurd same (other index outer)
  refine added.trans (.define added.tracked (fun _ => ?_) _)
  exact (Frames.getAdd s.frames _ s.frames.nextId "this").trans (if_pos rfl)

theorem Tracked.bound {id : InstanceId} {i : Instance} {name : String} {f : Function} (tracked : Tracked s)
    (there : s.machine.heap.instance? id = some i) (found : s.machine.heap.findMethod? i.cls name = some f)
    (taken : ∀ holder, ∃ e ∈ s.shadow.events, e.Accesses ⟨id, holder, name, f, s.frames.nextId⟩ ∨
      e.Constructs ⟨id, holder, name, f, s.frames.nextId⟩) :
    (s.bindThis f (s.methodOrigin i.cls name) id).Tracks (s.methodOrigin i.cls name)
      { f with closure := s.frames.nextId } := by
  -- the class where the search stops is not the receiver's own if the method is inherited
  obtain ⟨holder, c, descends, here, held, same⟩ := Heap.foundAlong s.shadow.methods found
  obtain ⟨spared, known⟩ := (tracked.classes holder c here).methods name f held
  refine ⟨spared, ?_⟩
  intro index outer origin
  obtain ⟨_, _, decl, split, numbered, e, member, creates⟩ := known _ (same.symm.trans origin)
  cases split
  have moves := Proceeds.bindThis tracked f (s.methodOrigin i.cls name) id
  refine ⟨⟨id, holder, name, f, s.frames.nextId⟩, rfl, ?_, ⟨i, there, descends.onward moves.onward⟩, ?_, taken holder⟩
  · refine (Frames.getDefine _ s.frames.nextId s.frames.nextId "this" "this" _).trans ?_
    rw [if_pos ⟨rfl, rfl⟩]
    exact congrArg (Option.map _) (Setting.addedFrame s f.closure _)
  · exact ⟨c, decl, here, held, numbered, e, member, creates⟩

end Binding

def Observed.TracksCallee (s : Observed) (origin : Option Address) : Callee → Prop
  | .callable (.function f) => s.Tracks origin f
  | .callable (.native _) => True
  | .construct cls => ∃ e ∈ s.shadow.events, e.Calls cls s.machine.heap

def Observed.Takes (s : Observed) (id : InstanceId) (name : String) : Prop :=
  ∀ i f holder, s.machine.heap.instance? id = some i → i.fields.find? name = none →
    s.machine.heap.findMethod? i.cls name = some f → ∃ e ∈ s.shadow.events,
      e.Accesses ⟨id, holder, name, f, s.frames.nextId⟩ ∨ e.Constructs ⟨id, holder, name, f, s.frames.nextId⟩

theorem notMethod (address : Option Address) {P : Nat → Address → Prop} :
    ∀ index outer, within? address .function = some (.method index :: outer) → P index outer := by
  intro index outer same
  obtain ⟨way, _, made⟩ := Option.map_eq_some_iff.mp same
  cases made

theorem otherRole {role : Role} (other : role ≠ .parameters) (address : Option Address) {P : Nat → Address → Prop} :
    ∀ index outer, siteOf address role = some ⟨.method index :: outer, .parameters⟩ → P index outer := by
  intro index outer same
  obtain ⟨way, _, made⟩ := Option.map_eq_some_iff.mp same
  cases made
  exact absurd rfl other

theorem tabledSpared {closure : FrameId} {isInitializer : FunctionDecl → Bool} {decls : List FunctionDecl}
    (spared : "this" ∉ FunctionDecl.wordsAll decls) {name : String} {f : Function}
    (found : (methodTable closure isInitializer decls).find? name = some f) : "this" ∉ f.decl.words :=
  @tabled closure isInitializer (fun _ => []) (fun _ f => "this" ∉ f.decl.words) decls 0 .empty .empty nofun
    (fun _ _ here member => spared (FunctionDecl.wordsMember (List.mem_of_getElem? here) member)) name f found

theorem classTracks {decl : ClassDecl} {superclass : Option ClassId} {s s' : Observed} {address : Option Address}
    {limit : Nat} (noted : Noted s address (.stmt (.classDecl decl))) (spared : "this" ∉ decl.words)
    (moves : Proceeds s s')
    (run : (evaluator limit).superclass decl.superclass s.machine = .ok superclass s'.machine) :
    s'.TracksClass (originsAt address .method decl.methods) (originsAt address .classMethod decl.classMethods)
      ⟨s'.machine.heap.classes.size⟩ (s'.classOf decl superclass) := by
  obtain ⟨_, sparedMethods, sparedOwn⟩ := classSpared spared
  cases address with
  | none =>
    exact ⟨fun _ _ found => ⟨tabledSpared sparedMethods found, nofun⟩,
      fun _ _ found => ⟨tabledSpared sparedOwn found, nofun⟩⟩
  | some way =>
    constructor
    · refine tabled _ 0 .empty .empty nofun ?_
      intro i method found
      refine ⟨fun member => sparedMethods (FunctionDecl.wordsMember (List.mem_of_getElem? found) member), ?_⟩
      intro _ same
      cases same
      rw [Nat.zero_add]
      exact ⟨i, way, _, rfl, found, _, moves.onward.events _ noted, limit, superclass, s'.machine, rfl, rfl, rfl, run,
        rfl, rfl⟩
    · refine tabled _ 0 .empty .empty nofun ?_
      intro i method found
      exact ⟨fun member => sparedOwn (FunctionDecl.wordsMember (List.mem_of_getElem? found) member), nofun⟩

section Calls
variable {s s' s'' : Observed} {address : Option Address} {n : Nat}

theorem calleeTracked {callee : Expr} {arguments : List Expr} {line : Nat} {value : Value} {target : Callee}
    {origin : Option Address} {values : List Value} (noted : Noted s address (.expr (.call callee arguments line)))
    (run : (watcher n).eval (within? address (.item 0)) callee s = .ok value s') (moves : Proceeds s s')
    (found : s'.machine.heap.callee? value = some target) (known : Watch.origin value s' = .ok origin s')
    (run' : (watcher n).evalFrom address 1 arguments s' = .ok values s'') (moves' : Proceeds s' s'') :
    s''.TracksCallee origin target := by
  cases value with
  | function id =>
    cases known
    obtain ⟨c, here, rfl⟩ := Option.map_eq_some_iff.mp found
    cases c with
    | function f => exact (moves.tracked.functions id f here).onward moves'.onward
    | native n => trivial
  | classObject id =>
    cases found
    refine ⟨_, moves'.onward.events _ (moves.onward.events _ noted), n, callee, arguments, line, values, s'.machine,
      s''.machine, rfl, rfl, ?_, ?_, rfl⟩
    · exact ((watchesUpTo n).eval _ callee).ran run
    · exact ((watchesUpTo n).evalFrom address 1 arguments).ran run'
  | _ => cases found

theorem accessTaken {object : Expr} {name : Ident} {id : InstanceId} (noted : Noted s address (.expr (.get object name)))
    (run : (watcher n).eval (within? address (.item 0)) object s = .ok (.instanceObject id) s') (moves : Proceeds s s') :
    s'.Takes id name.name := by
  intro i f holder there fieldless found
  have property : Run.instanceProperty id name s'.machine = f.bound id s'.machine := by
    simp only [Run.instanceProperty, there, fieldless, found]
  refine ⟨_, moves.onward.events _ noted, .inl ?_⟩
  exact ⟨n, object, name, s'.machine, i, ⟨s'.machine.heap.callables.size⟩, _, rfl, rfl, rfl,
    ((watchesUpTo n).eval _ object).ran run, there, found, rfl, property, Array.getElem?_push_size⟩

theorem constructionTaken {cls : ClassId} {e : Event} (member : e ∈ s.shadow.events)
    (calls : e.Calls cls s.machine.heap) :
    Observed.Takes { s with machine := s.machine.addInstance ⟨cls, .empty⟩ } ⟨s.machine.heap.instances.size⟩ "init" := by
  intro i f holder there _ found
  have made : (s.machine.addInstance ⟨cls, .empty⟩).heap.instance? ⟨s.machine.heap.instances.size⟩ =
      some ⟨cls, .empty⟩ := Array.getElem?_push_size
  cases made.symm.trans there
  -- the record has the call with the heap as it was before the instance
  have classes : s.machine.heap.classes = (s.machine.addInstance ⟨cls, .empty⟩).heap.classes := rfl
  have before : s.machine.heap.findMethod? cls "init" = some f :=
    (Heap.findAlongClasses classes Class.methods "init" _ cls).trans found
  exact ⟨e, member, .inr ⟨cls, s.machine.heap, calls, rfl, rfl, before, rfl⟩⟩

theorem Proceeds.withClass {decl : ClassDecl} {superclass : Option ClassId} (tracked : Tracked s)
    (tracks : s.TracksClass (originsAt address .method decl.methods) (originsAt address .classMethod decl.classMethods)
      ⟨s.machine.heap.classes.size⟩ (s.classOf decl superclass)) :
    Proceeds s (s.withClass address decl superclass) := by
  have framed : Proceeds s (s.addFrame s.machine.environment (siteOf address .classSide)) :=
    .addFrame tracked (otherRole (by decide) address)
  exact framed.trans (.addClass framed.tracked (tracks.onward framed.onward))

theorem Proceeds.defineOther {name : String} (tracked : Tracked s) (other : name ≠ "this") (frame : FrameId)
    (value : Value) : Proceeds s (s.define frame name value) :=
  .define tracked (fun same => absurd same other) value

theorem Observed.TracksCallee.sameHeap {m : Machine} {origin : Option Address} {callee : Callee}
    (tracks : s.TracksCallee origin callee) (same : m.heap = s.machine.heap) :
    Observed.TracksCallee { s with machine := m } origin callee := by
  rcases callee with (f | n) | cls
  · exact Observed.Tracks.onward tracks (.sameHeap same)
  · trivial
  · obtain ⟨e, member, calls⟩ := tracks
    rw [← same] at calls
    exact ⟨e, member, calls⟩

end Calls

def tracking : Invariant := .sparing Tracked Proceeds Observed.TracksCallee Observed.Takes

theorem trackingInductive : tracking.Inductive where
  toParts := Invariant.sparingParts
  toValues := Invariant.sparingValues
  holds moves := moves.tracked
  refl tracked := .refl tracked
  trans first second := first.trans second
  node spared _ := spared
  sees _ _ := trivial
  recorded moment tracked _ := .record tracked _ _ moment
  heapKept tracked kept := .sameHeap tracked kept.heap
  holdsElsewhere away tracked := (Proceeds.sameHeap tracked away.heap).tracked
  seesElsewhere _ _ := trivial
  callsElsewhere away tracks := Observed.TracksCallee.sameHeap tracks away.heap
  movesElsewhere away inner back _ _ :=
    ⟨(Proceeds.sameHeap inner.tracked back.heap).tracked,
      (Onward.sameHeap away.heap).trans (inner.onward.trans (.sameHeap back.heap))⟩
  called noted run moves _ found known run' moves' := calleeTracked noted run moves found known run' moves'
  lambda _ spared := ⟨spared, notMethod _⟩
  classMethod tracked _ found :=
    Setting.originFound (fun cls c f here own => (tracked.classes cls c here).classMethods _ f own) found
  accessed noted run moves := accessTaken noted run moves
  bound tracked _ takes there fieldless found :=
    ⟨.bindThis tracked _ _ _, tracked.bound there found fun holder => takes _ _ holder there fieldless found⟩
  assigned tracked spared _ _ :=
    .defineOther tracked (fun same => spared (List.mem_cons.mpr (.inl same.symm))) _ _
  fieldSet _ tracked _ _ := .alike tracked rfl rfl rfl fun found => Machine.setFieldKept found _ _ _
  variableDefined tracked spared _ :=
    ⟨.defineOther tracked (fun same => spared (same ▸ Stmt.nameWord _ _)) _ _, trivial⟩
  functionMade tracked tracks := ⟨.addFunction tracked tracks, trivial⟩
  functionDeclared {s _ address decl} tracked spared same := by
    subst same
    have made : Proceeds s (s.addFunction (.function ⟨decl, s.machine.environment, false⟩) (within? address .function)) :=
      .addFunction tracked ⟨fun member => spared (List.mem_cons_of_mem _ member), notMethod _⟩
    have other := fun same => spared (List.mem_cons.mpr (.inl (Eq.symm same)))
    exact ⟨made.trans (.defineOther made.tracked other _ _), trivial⟩
  classDeclared noted spared run moves _ same := by
    subst same
    have tracks := classTracks noted spared moves (((watchesUpTo _).superclass _ _).ran run)
    have made := Proceeds.withClass moves.tracked tracks
    exact ⟨made.trans (.defineOther made.tracked (classSpared spared).1 _ _), trivial⟩
  instanceMade tracked tracks same := by
    subst same
    obtain ⟨e, member, calls⟩ := tracks
    exact ⟨.alike tracked rfl rfl rfl fun found => Machine.addInstanceKept found _, trivial,
      constructionTaken member calls⟩
  blockOpened tracked spared same := by
    subst same
    exact ⟨.addFrame tracked (otherRole (by decide) _), spared⟩
  functionOpened tracked tracks := by
    refine .addFrame tracked fun index outer same => ?_
    obtain ⟨way, here, made⟩ := Option.map_eq_some_iff.mp same
    cases made
    exact tracks.2 index outer here
  parameterBound _ tracks moves member _ :=
    .defineOther moves.tracked (fun same => tracks.1 (same ▸ FunctionDecl.paramWord member)) _ _
  bodyOpened _ tracks moves _ same := by
    subst same
    exact ⟨.addFrame moves.tracked (otherRole (by decide) _), fun member => tracks.1 (FunctionDecl.bodyWords _ member)⟩

end Treewalk
