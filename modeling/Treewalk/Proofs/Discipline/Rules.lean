import Treewalk.Proofs.Discipline.Actions
import Treewalk.Proofs.Invariant.Sessions

/-! Runs under a discipline. Not only does a run leave the machine as the discipline wants it: at every event that is
recorded on the way the discipline is kept, the current frame is in sight, and nothing of an earlier event is lost. -/
namespace Treewalk.Discipline

structure Chronicle (d : Discipline) (m : Machine) (events : List Event) (m' : Machine) : Prop where
  kept : ∀ e ∈ events, d.Ready e.machine ∧ d.Here e.machine
  since : ∀ e ∈ events, m.Retains e.machine
  onwards : ∀ e ∈ events, e.machine.Retains m'
  order : events.Pairwise fun later earlier => earlier.machine.Retains later.machine

structure Leads (d : Discipline) (s s' : Observed) : Prop where
  later : d.Later s.machine s'.machine
  record : ∃ events, s'.shadow.events = events ++ s.shadow.events ∧ d.Chronicle s.machine events s'.machine

variable {d : Discipline} {s s' : Observed}

namespace Chronicle
variable {m m' : Machine} {events : List Event}

theorem nil (m m' : Machine) : d.Chronicle m [] m' :=
  ⟨List.forall_mem_nil _, List.forall_mem_nil _, List.forall_mem_nil _, .nil⟩

theorem stretch {before after : Machine} (h : d.Chronicle m events m') (first : before.Retains m)
    (last : m'.Retains after) : d.Chronicle before events after :=
  ⟨h.kept, fun e member => first.trans (h.since e member), fun e member => (h.onwards e member).trans last, h.order⟩

theorem append {m'' : Machine} {more : List Event} (first : d.Chronicle m events m') (second : d.Chronicle m' more m'')
    (before : m.Retains m') (after : m'.Retains m'') : d.Chronicle m (more ++ events) m'' := by
  have early := first.stretch (.refl m) after
  have late := second.stretch before (.refl m'')
  refine ⟨?_, ?_, ?_, ?_⟩
  · exact fun e member => (List.mem_append.mp member).elim (late.kept e) (early.kept e)
  · exact fun e member => (List.mem_append.mp member).elim (late.since e) (early.since e)
  · exact fun e member => (List.mem_append.mp member).elim (late.onwards e) (early.onwards e)
  · refine List.pairwise_append.mpr ⟨second.order, first.order, ?_⟩
    exact fun later inMore earlier inEvents => (first.onwards earlier inEvents).trans (second.since later inMore)

end Chronicle

namespace Leads

theorem silent (later : d.Later s.machine s'.machine) (same : s'.shadow.events = s.shadow.events) : d.Leads s s' :=
  ⟨later, [], same, .nil _ _⟩

theorem refl (ready : d.Ready s.machine) : d.Leads s s := silent ready.later rfl

theorem trans {s'' : Observed} (first : d.Leads s s') (second : d.Leads s' s'') : d.Leads s s'' := by
  obtain ⟨events, split, chronicle⟩ := first.record
  obtain ⟨more, split', chronicle'⟩ := second.record
  refine ⟨first.later.trans second.later, more ++ events, ?_, ?_⟩
  · rw [split', split, List.append_assoc]
  · exact chronicle.append chronicle' first.later.retains second.later.retains

theorem recorded (ready : d.Ready s.machine) (here : d.Here s.machine) (address : Option Address) (node : Phrase)
    (moment : Moment) : d.Leads s (s.record address node moment) := by
  refine ⟨ready.later, [⟨address, node, moment, s.machine, s.shadow.sites⟩], rfl, ?_⟩
  exact ⟨List.forall_mem_singleton.mpr ⟨ready, here⟩, List.forall_mem_singleton.mpr (.refl s.machine),
    List.forall_mem_singleton.mpr (.refl s.machine), List.pairwise_singleton _ _⟩

/- The current frame and the count of calls may be others at the ends: no event is lost by that. -/
theorem between {m m' : Machine} (away : Elsewhere s.machine m) (inner : d.Leads { s with machine := m } s')
    (back : Elsewhere s'.machine m') (environment : m'.environment = s.machine.environment)
    (calls : m'.callDepth = s.machine.callDepth) : d.Leads s { s' with machine := m' } := by
  obtain ⟨events, split, chronicle⟩ := inner.record
  obtain ⟨kept, retains, ready, sees⟩ := inner.later
  have first : s.machine.Retains m := .alike away.heap away.output away.globals
  have last : s'.machine.Retains m' := .alike back.heap back.output back.globals
  have globals : m'.globals = s.machine.globals := (back.globals.trans kept.globals).trans away.globals
  refine ⟨⟨⟨environment, calls, globals⟩, first.trans (retains.trans last), ready.elsewhere back, ?_⟩, events, split,
    chronicle.stretch first last⟩
  intro node seen
  change d.Sees m'.heap node
  rw [back.heap]
  apply sees
  change d.Sees m.heap node
  rw [away.heap]
  exact seen

end Leads

/- Calls do without the current frame: they run in frames of their own. -/
def invariant (d : Discipline) : Invariant where
  Holds s := d.Ready s.machine
  Moves := d.Leads
  Node s _ _ := d.Here s.machine
  Body s _ _ _ := d.Here s.machine
  Passed _ _ := True
  Sees s value := d.SeesValue s.machine.heap value
  Calls s _ callee := d.SeesCallee s.machine.heap callee
  Binds _ _ _ := True

theorem declared {decl : ClassDecl} {superclass : Option ClassId} (ready : d.Ready s.machine) (here : d.Here s.machine)
    (seen : ∀ id, superclass = some id → d.SeesValue s.machine.heap (.classObject id)) (address : Option Address) :
    d.Later s.machine ((s.withClass address decl superclass).define s.machine.environment decl.name.name
      (.classObject ⟨s.machine.heap.classes.size⟩)).machine := by
  obtain ⟨framed, frame⟩ := ready.addFrame here
  have names : ∀ node, Object.Names (.classObject (s.classOf decl superclass)) node →
      d.Sees (s.machine.addFrame s.machine.environment).heap node := by
    intro node named
    cases named with
    | superclass link => exact framed.sees _ (seen _ link _ rfl)
    | method bound =>
      rw [methodClosure bound]
      exact framed.sees _ here
    | classMethod bound =>
      rw [methodClosure bound]
      exact frame
  obtain ⟨made, cls⟩ := framed.ready.addClass names
  exact framed.trans (made.trans (made.ready.define decl.name.name (made.sees _ (framed.sees _ here)) cls))

theorem received {f : Function} {id : InstanceId} (ready : d.Ready s.machine)
    (closure : d.Sees s.machine.heap (.frame f.closure)) (seen : d.Sees s.machine.heap (.instanceObject id))
    (origin : Option Address) : d.Later s.machine (s.bindThis f origin id).machine ∧
      d.Sees (s.bindThis f origin id).machine.heap (.frame s.frames.nextId) := by
  obtain ⟨framed, frame⟩ := ready.addFrame closure
  have defined := framed.ready.define "this" frame (seesInstance (framed.sees _ seen))
  exact ⟨framed.trans defined, defined.sees _ frame⟩

theorem upheld (d : Discipline) : d.invariant.Inductive where
  holds moves := moves.later.ready
  refl ready := .refl ready
  trans first second := first.trans second
  node here moves := moves.later.here here
  sees seen moves := moves.later.value seen
  recorded moment ready here := .recorded ready here _ _ moment
  heapKept ready kept := .silent (ready.sameHeap kept.kept kept.heap kept.output) rfl
  holdsElsewhere away ready := ready.elsewhere away
  seesElsewhere {s m value} away seen := by
    change d.SeesValue m.heap value
    rw [away.heap]
    exact seen
  callsElsewhere {s m _ callee} away seen := by
    change d.SeesCallee m.heap callee
    rw [away.heap]
    exact seen
  movesElsewhere away inner back environment calls :=
    inner.between away back (environment inner.later.kept.environment) (calls inner.later.kept.callDepth)
  item here _ _ := here
  initializer here := here
  parent here _ := here
  first here := here
  rest here moves _ := moves.later.here here
  passed _ _ _ := trivial
  plain := seesPlain
  named ready here found := lookedUp ready here found
  field ready seen there found := fun node object =>
    d.follow ready.allowed (seen _ rfl) ⟨_, congrArg (Option.map Object.instanceObject) there, .field found object⟩
  received closure moves found := readAt moves.later.ready.allowed (moves.later.sees _ closure) found
  hosts ready trusted given ran := d.native ready.allowed trusted given ran
  called _ _ moves seen found _ _ moves' := moves'.later.callee (seesCalled moves.later.ready.allowed seen found)
  lambda _ here := here
  classMethod ready seen found := seesClassMethod ready.allowed (seen _ rfl) found
  accessed _ _ _ := trivial
  bound ready seen _ there _ found := by
    have object := congrArg (Option.map Object.instanceObject) there
    have closure := seesMethod ready.allowed (d.follow ready.allowed (seen _ rfl) ⟨_, object, .ofClass⟩) found
    obtain ⟨later, frame⟩ := received ready closure (seen _ rfl) _
    exact ⟨.silent later rfl, frame⟩
  assigned ready here seen found := .silent (ready.define _ (holderSeen ready here found) seen) rfl
  fieldSet name ready seen held := .silent (ready.changed ⟨rfl, rfl, rfl⟩ (.field (seen _ rfl) held) rfl) rfl
  variableDefined ready here seen := ⟨.silent (ready.define _ here seen) rfl, trivial⟩
  functionMade ready closure := by
    obtain ⟨later, seen⟩ := ready.addFunction closure
    exact ⟨.silent later rfl, seen⟩
  functionDeclared {s _ _ decl} ready here same := by
    subst same
    have closure : d.Sees s.machine.heap (.frame (Function.mk decl s.machine.environment false).closure) := here
    obtain ⟨later, seen⟩ := ready.addFunction closure
    exact ⟨.silent (later.trans (later.ready.define decl.label (later.sees _ here) seen)) rfl, trivial⟩
  classDeclared _ here _ moves seen same := by
    subst same
    exact ⟨.silent (declared moves.later.ready here seen _) rfl, trivial⟩
  instanceMade ready seen same := by
    subst same
    obtain ⟨later, made⟩ := ready.addInstance seen
    exact ⟨.silent later rfl, seesInstance made, trivial⟩
  blockOpened ready here same := by
    subst same
    obtain ⟨later, frame⟩ := ready.addFrame here
    exact ⟨.silent later rfl, frame⟩
  functionOpened ready closure := .silent (ready.addFrame closure).1 rfl
  parameterBound ready closure moves _ seen :=
    .silent (moves.later.ready.define _ (moves.later.sees _ (ready.addFrame closure).2) seen) rfl
  bodyOpened ready closure moves _ same := by
    subst same
    obtain ⟨later, frame⟩ := moves.later.ready.addFrame (moves.later.sees _ (ready.addFrame closure).2)
    exact ⟨.silent later rfl, frame⟩

theorem sequence (d : Discipline) (address : Option Address) :
    d.invariant.Sequence address (fun s _ _ => d.Here s.machine) :=
  ⟨fun here => here, fun here moves => moves.later.here here⟩

end Treewalk.Discipline
