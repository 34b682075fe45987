import Treewalk.Proofs.Discipline
import Treewalk.Proofs.Invariant

/-! Actions under a discipline. Each action of a machine reads what is in sight, or changes the heap with it. -/
namespace Treewalk.Discipline
variable {d : Discipline} {m m' : Machine}

theorem seesPlain {h : Heap} {value : Value} (plain : value.node? = none) : d.SeesValue h value := by
  intro node object
  cases plain.symm.trans object

theorem seesInstance {h : Heap} {id : InstanceId} (seen : d.Sees h (.instanceObject id)) :
    d.SeesValue h (.instanceObject id) := by
  intro node object
  cases object
  exact seen

theorem Ready.elsewhere (ready : d.Ready m) (away : Elsewhere m m') : d.Ready m' := by
  constructor
  · rw [away.heap]
    exact ready.allowed
  · rw [away.heap, away.globals]
    exact ready.globals

section Reading

theorem readAt {h : Heap} {id : FrameId} {depth line : Nat} {name : String} {value : Value} (allowed : d.Allows h)
    (seen : d.Sees h (.frame id)) (found : h.frames.getAt id depth name line = .ok value) : d.SeesValue h value := by
  unfold Frames.getAt at found
  split at found
  · rename_i found'
    cases found
    obtain ⟨frame, reached, bound⟩ := Option.bind_eq_some_iff.mp found'
    exact seesBinding allowed (seesAncestor allowed seen reached) bound
  · cases found

theorem readGlobal {h : Heap} {id : FrameId} {line : Nat} {name : String} {value : Value} (allowed : d.Allows h)
    (seen : d.Sees h (.frame id)) (found : h.frames.getGlobal id name line = .ok value) : d.SeesValue h value := by
  unfold Frames.getGlobal at found
  split at found
  · rename_i found'
    cases found
    exact seesBinding allowed (seesClimbed allowed _ seen) found'
  · cases found

theorem lookedUp {name : Ident} {depth : Depth} {value : Value} (ready : d.Ready m) (here : d.Here m)
    (found : Run.lookUp name depth m = .ok value m) : d.SeesValue m.heap value := by
  have read : ∀ {result : Except RuntimeError Value}, Run.ofExcept result m = .ok value m → result = .ok value := by
    intro result same
    cases result <;> cases same
    rfl
  cases depth with
  | none => exact readGlobal ready.allowed ready.globals (read found)
  | some depth => exact readAt ready.allowed here (read found)

theorem holderSeen {name : Ident} {depth : Depth} {frame : FrameId} (ready : d.Ready m) (here : d.Here m)
    (found : Run.holder? name depth m = .ok (some frame) m) : d.Sees m.heap (.frame frame) := by
  cases depth with
  | none =>
    obtain ⟨reached, _⟩ := Option.filter_eq_some_iff.mp (EStateM.Result.ok.inj found).1
    cases reached
    exact seesClimbed ready.allowed _ ready.globals
  | some depth =>
    exact seesAncestor ready.allowed here (Option.filter_eq_some_iff.mp (EStateM.Result.ok.inj found).1).1

end Reading

section Changing
variable (ready : d.Ready m)
include ready

theorem Ready.define {frame : FrameId} {value : Value} (name : String) (seen : d.Sees m.heap (.frame frame))
    (held : d.SeesValue m.heap value) : d.Later m (m.define frame name value) :=
  ready.changed ⟨rfl, rfl, rfl⟩ (.binding seen held) rfl

theorem Ready.made {node : Node} (kept : Kept m m') (change : m.heap.Change (d.Sees m.heap) m'.heap)
    (printed : m'.output = m.output) (absent : m.heap.object? node = none) (present : m'.heap.Holds node) :
    d.Later m m' ∧ d.Sees m'.heap node := by
  have missing : ¬ m.heap.Holds node := by simp [Heap.Holds, absent]
  exact ⟨ready.changed kept change printed, d.fresh ready.allowed change missing present⟩

theorem Ready.addFrame {parent : FrameId} (seen : d.Sees m.heap (.frame parent)) :
    d.Later m (m.addFrame parent) ∧ d.Sees (m.addFrame parent).heap (.frame m.heap.frames.nextId) := by
  refine ready.made ⟨rfl, rfl, rfl⟩ (.frame seen) rfl ?_ ⟨_, (m.heap.frameAdded _ parent).trans (if_pos rfl)⟩
  simp [Heap.object?, Frames.frameFresh]

theorem Ready.addFunction {f : Function} (seen : d.Sees m.heap (.frame f.closure)) :
    d.Later m (m.addCallable (.function f)) ∧
    d.SeesValue (m.addCallable (.function f)).heap (.function ⟨m.heap.callables.size⟩) := by
  have made : d.Later m (m.addCallable (.function f)) ∧
      d.Sees (m.addCallable (.function f)).heap (.function ⟨m.heap.callables.size⟩) := by
    refine ready.made ⟨rfl, rfl, rfl⟩ (.function seen) rfl ?_ ⟨_, (m.heap.functionAdded _ _).trans (if_pos rfl)⟩
    simp [Heap.object?, Heap.callable?]
  refine ⟨made.1, ?_⟩
  intro node object
  cases object
  exact made.2

theorem Ready.addClass {c : Class} (seen : ∀ node, Object.Names (.classObject c) node → d.Sees m.heap node) :
    d.Later m (m.addClass c) ∧ d.SeesValue (m.addClass c).heap (.classObject ⟨m.heap.classes.size⟩) := by
  have made : d.Later m (m.addClass c) ∧ d.Sees (m.addClass c).heap (.classObject ⟨m.heap.classes.size⟩) := by
    refine ready.made ⟨rfl, rfl, rfl⟩ (.classObject seen) rfl ?_ ⟨_, (m.heap.classAdded _ c).trans (if_pos rfl)⟩
    simp [Heap.object?, Heap.class?]
  refine ⟨made.1, ?_⟩
  intro node object
  cases object
  exact made.2

theorem Ready.addInstance {cls : ClassId} (seen : d.Sees m.heap (.classObject cls)) :
    d.Later m (m.addInstance ⟨cls, .empty⟩) ∧
    d.Sees (m.addInstance ⟨cls, .empty⟩).heap (.instanceObject ⟨m.heap.instances.size⟩) := by
  refine ready.made ⟨rfl, rfl, rfl⟩ (.instanceObject seen) rfl ?_ ⟨_, (m.heap.instanceAdded _ _).trans (if_pos rfl)⟩
  simp [Heap.object?, Heap.instance?]

end Changing

theorem methodClosure {closure : FrameId} {isInitializer : FunctionDecl → Bool} {decls : List FunctionDecl}
    {name : String} {f : Function} (found : (methodTable closure isInitializer decls).find? name = some f) :
    f.closure = closure := by
  have kept : ∀ (decls : List FunctionDecl) (table : Table Function),
      (∀ other f, table.find? other = some f → f.closure = closure) → ∀ other f,
        (decls.foldl (fun table decl => table.insert decl.label ⟨decl, closure, isInitializer decl⟩) table).find?
          other = some f → f.closure = closure := by
    intro decls
    induction decls with
    | nil => exact fun table before => before
    | cons decl rest ih =>
      intro table before
      apply ih
      intro other f found
      rw [Table.findInsert] at found
      split at found
      · cases found
        rfl
      · exact before other f found
  exact kept decls .empty nofun name f found

end Treewalk.Discipline
