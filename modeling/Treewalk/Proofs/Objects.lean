import Mathlib.Logic.Relation
import Treewalk.Heap
import Treewalk.Proofs.Frames

/-! Objects and the references between them. A heap changes by one object at a time: an object is added, a name is bound
in a frame, or a field of an instance is set. What each change can do to the references is said once, in
`Change.differs`. -/
namespace Treewalk

inductive Node where
  | frame (id : FrameId)
  | function (id : FunctionId)
  | classObject (id : ClassId)
  | instanceObject (id : InstanceId)
  deriving DecidableEq, Repr

inductive Object where
  | frame (f : Frame)
  | callable (c : Callable)
  | classObject (c : Class)
  | instanceObject (i : Instance)

namespace Value

def node? : Value → Option Node
  | .function id => some (.function id)
  | .classObject id => some (.classObject id)
  | .instanceObject id => some (.instanceObject id)
  | _ => none

def Known (known : Node → Prop) (value : Value) : Prop := ∀ node, value.node? = some node → known node

end Value

inductive Object.Names : Object → Node → Prop where
  | parent {f : Frame} {id} (link : f.parent = some id) : Names (.frame f) (.frame id)
  | binding {f : Frame} {name value node} (bound : f.bindings.find? name = some value)
      (object : value.node? = some node) : Names (.frame f) node
  | closure {f : Function} : Names (.callable (.function f)) (.frame f.closure)
  | superclass {c : Class} {id} (link : c.superclass = some id) : Names (.classObject c) (.classObject id)
  | method {c : Class} {name f} (bound : c.methods.find? name = some f) : Names (.classObject c) (.frame f.closure)
  | classMethod {c : Class} {name f} (bound : c.classMethods.find? name = some f) :
      Names (.classObject c) (.frame f.closure)
  | ofClass {i : Instance} : Names (.instanceObject i) (.classObject i.cls)
  | field {i : Instance} {name value node} (bound : i.fields.find? name = some value)
      (object : value.node? = some node) : Names (.instanceObject i) node

def Object.put (name : String) (value : Value) : Object → Object
  | .frame f => .frame { f with bindings := f.bindings.insert name value }
  | .instanceObject i => .instanceObject { i with fields := i.fields.insert name value }
  | other => other

theorem Object.namesPut {object : Object} {name : String} {value : Value} {node : Node}
    (named : (object.put name value).Names node) : value.node? = some node ∨ object.Names node := by
  cases object with
  | frame f =>
    cases named with
    | parent link => exact .inr (.parent link)
    | binding bound inner =>
      rw [Table.findInsert] at bound
      split at bound
      · cases bound
        exact .inl inner
      · exact .inr (.binding bound inner)
  | instanceObject i =>
    cases named with
    | ofClass => exact .inr .ofClass
    | field bound inner =>
      rw [Table.findInsert] at bound
      split at bound
      · cases bound
        exact .inl inner
      · exact .inr (.field bound inner)
  | callable c => exact .inr named
  | classObject c => exact .inr named

namespace Heap

def object? (h : Heap) : Node → Option Object
  | .frame id => (h.frames.frame? id).map .frame
  | .function id => (h.callable? id).map .callable
  | .classObject id => (h.class? id).map .classObject
  | .instanceObject id => (h.instance? id).map .instanceObject

def Holds (h : Heap) (node : Node) : Prop := ∃ object, h.object? node = some object

def Refers (h : Heap) (node other : Node) : Prop := ∃ object, h.object? node = some object ∧ object.Names other

def Reaches (h : Heap) : Node → Node → Prop := Relation.ReflTransGen h.Refers

/- The changes of a heap, as far as they are made with known objects. Functions of the host are never added. -/
inductive Change (known : Node → Prop) (h : Heap) : Heap → Prop where
  | frame {parent} (link : known (.frame parent)) : Change known h { h with frames := h.frames.addChild parent }
  | binding {id name value} (here : known (.frame id)) (held : value.Known known) :
      Change known h { h with frames := h.frames.define id name value }
  | function {f : Function} (link : known (.frame f.closure)) :
      Change known h { h with callables := h.callables.push (.function f) }
  | classObject {c : Class} (links : ∀ node, Object.Names (.classObject c) node → known node) :
      Change known h { h with classes := h.classes.push c }
  | instanceObject {cls} (link : known (.classObject cls)) :
      Change known h { h with instances := h.instances.push ⟨cls, .empty⟩ }
  | field {id : InstanceId} {name value} (here : known (.instanceObject id)) (held : value.Known known) :
      Change known h { h with instances := h.instances.modify id.index fun i =>
        { i with fields := i.fields.insert name value } }

/- Two heaps that differ at one node at most. There the object is new, or is known and keeps what it is; what it names
more than before is known. -/
structure Differs (known : Node → Prop) (h h' : Heap) (node : Node) : Prop where
  elsewhere : ∀ other, other ≠ node → h'.object? other = h.object? other
  kept : h.Holds node → known node ∧ h'.Holds node
  names : ∀ object other, h'.object? node = some object → object.Names other → known other ∨ h.Refers node other

section
variable {known : Node → Prop} {h h' : Heap} {node : Node}

theorem Differs.added {object : Object} (empty : h.object? node = none)
    (now : ∀ other, h'.object? other = if other = node then some object else h.object? other)
    (made : ∀ other, object.Names other → known other) : Differs known h h' node := by
  have here := now node
  rw [if_pos rfl] at here
  constructor
  · intro other different
    rw [now, if_neg different]
  · intro ⟨old, found⟩
    cases empty.symm.trans found
  · intro new other found named
    cases here.symm.trans found
    exact .inl (made other named)

theorem Differs.put {name : String} {value : Value} (here : known node) (held : value.Known known)
    (now : ∀ other, h'.object? other = if other = node then (h.object? node).map (Object.put name value)
      else h.object? other) : Differs known h h' node := by
  have changed := now node
  rw [if_pos rfl] at changed
  constructor
  · intro other different
    rw [now, if_neg different]
  · intro ⟨old, found⟩
    rw [found, Option.map_some] at changed
    exact ⟨here, _, changed⟩
  · intro new other found named
    rw [changed] at found
    obtain ⟨old, before, rfl⟩ := Option.map_eq_some_iff.mp found
    rcases Object.namesPut named with inValue | inOld
    · exact .inl (held other inValue)
    · exact .inr ⟨old, before, inOld⟩

end

section
variable (h : Heap) (node : Node)

theorem frameAdded (parent : FrameId) : { h with frames := h.frames.addChild parent }.object? node =
    if node = .frame h.frames.nextId then some (.frame ⟨some parent, .empty⟩) else h.object? node := by
  cases node with
  | frame id =>
    simp only [object?, Frames.addChild, Frames.frameAdd, Node.frame.injEq]
    split <;> rfl
  | _ => rfl

theorem functionAdded (c : Callable) : { h with callables := h.callables.push c }.object? node =
    if node = .function ⟨h.callables.size⟩ then some (.callable c) else h.object? node := by
  cases node with
  | function id =>
    obtain ⟨index⟩ := id
    simp only [object?, callable?, Array.getElem?_push, Node.function.injEq, FunctionId.mk.injEq]
    split <;> rfl
  | _ => rfl

theorem classAdded (c : Class) : { h with classes := h.classes.push c }.object? node =
    if node = .classObject ⟨h.classes.size⟩ then some (.classObject c) else h.object? node := by
  cases node with
  | classObject id =>
    obtain ⟨index⟩ := id
    simp only [object?, class?, Array.getElem?_push, Node.classObject.injEq, ClassId.mk.injEq]
    split <;> rfl
  | _ => rfl

theorem instanceAdded (i : Instance) : { h with instances := h.instances.push i }.object? node =
    if node = .instanceObject ⟨h.instances.size⟩ then some (.instanceObject i) else h.object? node := by
  cases node with
  | instanceObject id =>
    obtain ⟨index⟩ := id
    simp only [object?, instance?, Array.getElem?_push, Node.instanceObject.injEq, InstanceId.mk.injEq]
    split <;> rfl
  | _ => rfl

theorem bindingPut (id : FrameId) (name : String) (value : Value) :
    { h with frames := h.frames.define id name value }.object? node =
      if node = .frame id then (h.object? (.frame id)).map (Object.put name value) else h.object? node := by
  cases node with
  | frame other =>
    simp only [object?, Frames.frameDefine, Node.frame.injEq, Option.map_map]
    split
    · rw [Option.map_map]
      rfl
    · rfl
  | _ => rfl

theorem fieldPut (id : InstanceId) (name : String) (value : Value) :
    { h with instances := h.instances.modify id.index fun i =>
        { i with fields := i.fields.insert name value } }.object? node =
      if node = .instanceObject id then (h.object? (.instanceObject id)).map (Object.put name value)
      else h.object? node := by
  cases node with
  | instanceObject other =>
    obtain ⟨index⟩ := id
    obtain ⟨other⟩ := other
    simp only [object?, instance?, Array.getElem?_modify, Node.instanceObject.injEq, InstanceId.mk.injEq]
    by_cases same : index = other
    · simp only [same, if_true, Option.map_map]
      rfl
    · rw [if_neg same, if_neg (Ne.symm same)]
  | _ => rfl

end

section
variable {known : Node → Prop} {h h' : Heap}

theorem Change.differs (change : Change known h h') : ∃ node, Differs known h h' node := by
  cases change with
  | frame link =>
    refine ⟨_, .added ?_ (h.frameAdded · _) ?_⟩
    · simp [object?, Frames.frameFresh]
    · intro other named
      cases named with
      | parent same => cases same; exact link
      | binding bound => cases bound
  | function link =>
    refine ⟨_, .added ?_ (h.functionAdded · _) ?_⟩
    · simp [object?, callable?]
    · intro other named
      cases named
      exact link
  | classObject links =>
    refine ⟨_, .added ?_ (h.classAdded · _) links⟩
    simp [object?, class?]
  | instanceObject link =>
    refine ⟨_, .added ?_ (h.instanceAdded · _) ?_⟩
    · simp [object?, instance?]
    · intro other named
      cases named with
      | ofClass => exact link
      | field bound => cases bound
  | binding here held => exact ⟨_, .put here held (h.bindingPut · _ _ _)⟩
  | field here held => exact ⟨_, .put here held (h.fieldPut · _ _ _)⟩

theorem Change.holds (change : Change known h h') {node : Node} (held : h.Holds node) : h'.Holds node := by
  obtain ⟨changed, differs⟩ := change.differs
  by_cases same : node = changed
  · subst same
    exact (differs.kept held).2
  · unfold Holds at held ⊢
    rwa [differs.elsewhere node same]

theorem Change.refers (change : Change known h h') {node other : Node} (refers : h'.Refers node other) :
    known other ∨ h.Refers node other := by
  obtain ⟨changed, differs⟩ := change.differs
  obtain ⟨object, found, named⟩ := refers
  by_cases same : node = changed
  · subst same
    exact differs.names object other found named
  · rw [differs.elsewhere node same] at found
    exact .inr ⟨object, found, named⟩

theorem Change.unknown (change : Change known h h') {node : Node} (held : h.Holds node) (unknown : ¬ known node) :
    h'.object? node = h.object? node := by
  obtain ⟨changed, differs⟩ := change.differs
  apply differs.elsewhere
  intro same
  subst same
  exact unknown (differs.kept held).1

theorem Change.native (change : Change known h h') {id : FunctionId} {n : Native}
    (found : h'.callable? id = some (.native n)) : h.callable? id = some (.native n) := by
  cases change with
  | function link =>
    simp only [callable?, Array.getElem?_push] at found
    split at found
    · cases found
    · exact found
  | _ => exact found

end
end Heap
end Treewalk
