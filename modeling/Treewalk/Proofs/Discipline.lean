import Treewalk.Proofs.Restored
import Treewalk.Proofs.Retained

/-! Disciplines. A discipline says what is to hold of a heap and which of its objects are in sight. Where sight follows
references, and every change made with objects in sight is allowed and brings what it adds into sight, a run gets hold
of objects in sight only and leaves a heap as the discipline wants it. -/
namespace Treewalk

structure Discipline where
  Allows : Heap → Prop
  Sees : Heap → Node → Prop
  Trusts : Native → Prop
  follow : ∀ {h node other}, Allows h → Sees h node → h.Refers node other → Sees h other
  change : ∀ {h h'}, Allows h → h.Change (Sees h) h' → Allows h'
  keeps : ∀ {h h' node}, Allows h → h.Change (Sees h) h' → Sees h node → Sees h' node
  fresh : ∀ {h h' node}, Allows h → h.Change (Sees h) h' → ¬ h.Holds node → h'.Holds node → Sees h' node
  installed : ∀ {h id n}, Allows h → h.callable? id = some (.native n) → Trusts n
  native : ∀ {m : Machine} {n arguments value}, Allows m.heap → Trusts n → (∀ a ∈ arguments, a.Known (Sees m.heap)) →
    n.run m.hostView arguments = .ok value → value.Known (Sees m.heap)

namespace Discipline

section Sight
variable (d : Discipline)

def SeesValue (h : Heap) (value : Value) : Prop := value.Known (d.Sees h)

def SeesCallee (h : Heap) : Callee → Prop
  | .callable (.function f) => d.Sees h (.frame f.closure)
  | .callable (.native n) => d.Trusts n
  | .construct cls => d.Sees h (.classObject cls)

structure Ready (m : Machine) : Prop where
  allowed : d.Allows m.heap
  globals : d.Sees m.heap (.frame m.globals)

def Here (m : Machine) : Prop := d.Sees m.heap (.frame m.environment)

structure Later (m m' : Machine) : Prop where
  kept : Kept m m'
  retains : m.Retains m'
  ready : d.Ready m'
  sees : ∀ node, d.Sees m.heap node → d.Sees m'.heap node

end Sight

variable {d : Discipline} {m m' : Machine}

theorem Ready.later (ready : d.Ready m) : d.Later m m := ⟨.refl m, .refl m, ready, fun _ seen => seen⟩

theorem Ready.sameHeap (ready : d.Ready m) (kept : Kept m m') (same : m'.heap = m.heap)
    (printed : m.output.toList <+: m'.output.toList) : d.Later m m' := by
  have retains : m.heap.Retains m'.heap := by
    rw [same]
    exact .refl m.heap
  refine ⟨kept, ⟨retains, printed, kept.globals⟩, ⟨?_, ?_⟩, ?_⟩
  · rw [same]
    exact ready.allowed
  · rw [same, kept.globals]
    exact ready.globals
  · rw [same]
    exact fun _ seen => seen

theorem Ready.changed (ready : d.Ready m) (kept : Kept m m') (change : m.heap.Change (d.Sees m.heap) m'.heap)
    (printed : m'.output = m.output) : d.Later m m' := by
  have sees := fun node (seen : d.Sees m.heap node) => d.keeps ready.allowed change seen
  have output : m.output.toList <+: m'.output.toList := ⟨[], by rw [List.append_nil, printed]⟩
  refine ⟨kept, ⟨.change change, output, kept.globals⟩, ⟨d.change ready.allowed change, ?_⟩, sees⟩
  rw [kept.globals]
  exact sees _ ready.globals

namespace Later

theorem trans {m'' : Machine} (first : d.Later m m') (second : d.Later m' m'') : d.Later m m'' :=
  ⟨first.kept.trans second.kept, first.retains.trans second.retains, second.ready,
    fun node seen => second.sees node (first.sees node seen)⟩

theorem here (later : d.Later m m') (here : d.Here m) : d.Here m' := by
  unfold Here
  rw [later.kept.environment]
  exact later.sees _ here

theorem value {v : Value} (later : d.Later m m') (seen : d.SeesValue m.heap v) : d.SeesValue m'.heap v :=
  fun node object => later.sees node (seen node object)

theorem callee {c : Callee} (later : d.Later m m') (seen : d.SeesCallee m.heap c) : d.SeesCallee m'.heap c := by
  rcases c with (f | n) | cls
  · exact later.sees _ seen
  · exact seen
  · exact later.sees _ seen

end Later

section Reading
variable {h : Heap} (allowed : d.Allows h)
include allowed

theorem seesBinding {id : FrameId} {name : String} {value : Value} (seen : d.Sees h (.frame id))
    (found : h.frames.get? id name = some value) : d.SeesValue h value := by
  intro node object
  obtain ⟨frame, here, bound⟩ := Option.bind_eq_some_iff.mp found
  exact d.follow allowed seen ⟨.frame frame, congrArg (Option.map Object.frame) here, .binding bound object⟩

theorem seesParent {id parent : FrameId} (seen : d.Sees h (.frame id)) (found : h.frames.parent? id = some parent) :
    d.Sees h (.frame parent) := by
  obtain ⟨frame, here, link⟩ := Frames.parentFrame found
  exact d.follow allowed seen ⟨.frame frame, congrArg (Option.map Object.frame) here, .parent link⟩

theorem seesAncestor {id ancestor : FrameId} {depth : Nat} (seen : d.Sees h (.frame id))
    (found : h.frames.ancestor? id depth = some ancestor) : d.Sees h (.frame ancestor) := by
  induction depth generalizing id with
  | zero =>
    cases found
    exact seen
  | succ depth ih =>
    obtain ⟨parent, link, rest⟩ := Option.bind_eq_some_iff.mp found
    exact ih (seesParent allowed seen link) rest

theorem seesClimbed (steps : Nat) {id : FrameId} (seen : d.Sees h (.frame id)) :
    d.Sees h (.frame (h.frames.climb steps id)) := by
  induction steps generalizing id with
  | zero => exact seen
  | succ steps ih =>
    unfold Frames.climb
    split
    · rename_i parent link
      exact ih (seesParent allowed seen link)
    · exact seen

theorem seesAlong {table : Class → Table Function} (tabled : ∀ c name f, (table c).find? name = some f →
      Object.Names (.classObject c) (.frame f.closure))
    {name : String} {steps : Nat} {id : ClassId} {f : Function} (seen : d.Sees h (.classObject id))
    (found : h.findAlong table name steps id = some f) : d.Sees h (.frame f.closure) := by
  induction steps generalizing id with
  | zero => cases found
  | succ steps ih =>
    unfold Heap.findAlong at found
    cases here : h.class? id with
    | none => simp [here] at found
    | some c =>
      have object : h.object? (.classObject id) = some (.classObject c) := congrArg (Option.map Object.classObject) here
      simp only [here] at found
      split at found
      · rename_i f' _ bound
        cases found
        exact d.follow allowed seen ⟨_, object, tabled c name f bound⟩
      · rename_i superclass _ link
        exact ih (d.follow allowed seen ⟨_, object, .superclass link⟩) found
      · cases found

theorem seesMethod {id : ClassId} {name : String} {f : Function} (seen : d.Sees h (.classObject id))
    (found : h.findMethod? id name = some f) : d.Sees h (.frame f.closure) :=
  seesAlong allowed (fun _ _ _ bound => .method bound) seen found

theorem seesClassMethod {id : ClassId} {name : String} {f : Function} (seen : d.Sees h (.classObject id))
    (found : h.findClassMethod? id name = some f) : d.Sees h (.frame f.closure) :=
  seesAlong allowed (fun _ _ _ bound => .classMethod bound) seen found

theorem seesCalled {value : Value} {callee : Callee} (seen : d.SeesValue h value)
    (found : h.callee? value = some callee) : d.SeesCallee h callee := by
  cases value with
  | function id =>
    obtain ⟨c, here, rfl⟩ := Option.map_eq_some_iff.mp found
    cases c with
    | function f =>
      exact d.follow allowed (seen _ rfl) ⟨_, congrArg (Option.map Object.callable) here, .closure⟩
    | native n => exact d.installed allowed here
  | classObject id =>
    cases found
    exact seen _ rfl
  | _ => cases found

end Reading

end Discipline
end Treewalk
