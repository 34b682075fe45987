import Treewalk.Machine
import Treewalk.Proofs.Objects

/-! What a machine retains. No object of a heap is lost or replaced: a frame keeps its parent and its names, an instance
its class and its fields, and functions and classes do not change at all. What was printed stays printed. -/
namespace Treewalk

/- An object and what it has become. Values may have been replaced, so only the names of bindings and fields stay. -/
inductive Object.Becomes : Object → Object → Prop where
  | frame {f f' : Frame} (parent : f'.parent = f.parent)
      (names : ∀ name, f.bindings.contains name = true → f'.bindings.contains name = true) :
      Becomes (.frame f) (.frame f')
  | callable (c : Callable) : Becomes (.callable c) (.callable c)
  | classObject (c : Class) : Becomes (.classObject c) (.classObject c)
  | instanceObject {i i' : Instance} (cls : i'.cls = i.cls)
      (names : ∀ name, i.fields.contains name = true → i'.fields.contains name = true) :
      Becomes (.instanceObject i) (.instanceObject i')

namespace Object.Becomes

theorem refl (object : Object) : object.Becomes object := by
  cases object with
  | frame f => exact .frame rfl fun _ bound => bound
  | callable c => exact .callable c
  | classObject c => exact .classObject c
  | instanceObject i => exact .instanceObject rfl fun _ bound => bound

theorem trans {object now later : Object} (first : object.Becomes now) (second : now.Becomes later) :
    object.Becomes later := by
  cases first with
  | frame parent names =>
    cases second with
    | frame parent' names' => exact .frame (parent'.trans parent) fun name bound => names' name (names name bound)
  | callable c => exact second
  | classObject c => exact second
  | instanceObject cls names =>
    cases second with
    | instanceObject cls' names' => exact .instanceObject (cls'.trans cls) fun name bound => names' name (names name bound)

theorem put (object : Object) (name : String) (value : Value) : object.Becomes (object.put name value) := by
  have kept : ∀ (t : Table Value) (other : String), t.contains other = true → (t.insert name value).contains other = true := by
    intro t other bound
    rw [Table.containsInsert, bound, Bool.or_true]
  cases object with
  | frame f => exact .frame rfl (kept f.bindings)
  | callable c => exact .callable c
  | classObject c => exact .classObject c
  | instanceObject i => exact .instanceObject rfl (kept i.fields)

end Object.Becomes

def Heap.Retains (h h' : Heap) : Prop :=
  ∀ node object, h.object? node = some object → ∃ now, h'.object? node = some now ∧ object.Becomes now

namespace Heap.Retains
variable {h h' : Heap}

theorem refl (h : Heap) : h.Retains h := fun _ object found => ⟨object, found, .refl object⟩

theorem trans {h'' : Heap} (first : h.Retains h') (second : h'.Retains h'') : h.Retains h'' := by
  intro node object found
  obtain ⟨now, here, becomes⟩ := first node object found
  obtain ⟨later, there, becomes'⟩ := second node now here
  exact ⟨later, there, becomes.trans becomes'⟩

theorem added {node : Node} {new : Object} (empty : h.object? node = none)
    (now : ∀ other, h'.object? other = if other = node then some new else h.object? other) : h.Retains h' := by
  intro other object found
  have elsewhere : other ≠ node := by
    rintro rfl
    cases empty.symm.trans found
  refine ⟨object, ?_, .refl object⟩
  rw [now, if_neg elsewhere]
  exact found

theorem put {node : Node} {name : String} {value : Value}
    (now : ∀ other, h'.object? other = if other = node then (h.object? node).map (Object.put name value)
      else h.object? other) : h.Retains h' := by
  intro other object found
  by_cases here : other = node
  · subst here
    refine ⟨object.put name value, ?_, .put object name value⟩
    rw [now, if_pos rfl, found, Option.map_some]
  · refine ⟨object, ?_, .refl object⟩
    rw [now, if_neg here]
    exact found

theorem addCallable (h : Heap) (c : Callable) : h.Retains { h with callables := h.callables.push c } :=
  added (by simp [object?, callable?]) (h.functionAdded · c)

theorem change {known : Node → Prop} (change : h.Change known h') : h.Retains h' := by
  cases change with
  | frame link => exact added (by simp [object?, Frames.frameFresh]) (h.frameAdded · _)
  | binding here held => exact put (h.bindingPut · _ _ _)
  | function link => exact addCallable h _
  | classObject links => exact added (by simp [object?, class?]) (h.classAdded · _)
  | instanceObject link => exact added (by simp [object?, instance?]) (h.instanceAdded · _)
  | field here held => exact put (h.fieldPut · _ _ _)

theorem holds {node : Node} (retains : h.Retains h') (held : h.Holds node) : h'.Holds node := by
  obtain ⟨object, found⟩ := held
  obtain ⟨now, here, _⟩ := retains node object found
  exact ⟨now, here⟩

end Heap.Retains

structure Machine.Retains (m m' : Machine) : Prop where
  heap : m.heap.Retains m'.heap
  output : m.output.toList <+: m'.output.toList
  globals : m'.globals = m.globals

namespace Machine.Retains
variable {m m' : Machine}

theorem refl (m : Machine) : m.Retains m := ⟨.refl m.heap, List.prefix_rfl, rfl⟩

theorem trans {m'' : Machine} (first : m.Retains m') (second : m'.Retains m'') : m.Retains m'' :=
  ⟨first.heap.trans second.heap, first.output.trans second.output, second.globals.trans first.globals⟩

theorem alike (heap : m'.heap = m.heap) (output : m'.output = m.output) (globals : m'.globals = m.globals) :
    m.Retains m' := by
  refine ⟨?_, ⟨[], ?_⟩, globals⟩
  · rw [heap]
    exact .refl m.heap
  · rw [List.append_nil, output]

end Machine.Retains
end Treewalk
