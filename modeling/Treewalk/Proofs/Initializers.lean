import Treewalk.Proofs.CallCount
import Treewalk.Proofs.Receivers.Rules

/-! Initializers and their receivers. A class holds its methods unbound, and the one named `init` is its initializer; a
function value that is an initializer closes over a frame with `this`. No code that comes from a text has `this` as a
name, so once a frame has it nothing takes it away or puts another in its place. -/
namespace Treewalk

/- Nothing in the function binds `this`, and if it is an initializer then the frame it closes over does. -/
structure Heap.Equipped (h : Heap) (f : Function) : Prop where
  spared : "this" ∉ f.decl.words
  receiver : f.isInitializer = true → ∃ x, h.frames.get? f.closure "this" = some (.instanceObject x)

def Heap.EquippedCallee (h : Heap) : Callee → Prop
  | .callable (.function f) => h.Equipped f
  | .callable (.native _) => True
  | .construct _ => True

def Listed (marked : String → Bool) (table : Table Function) : Prop :=
  ∀ name f, table.find? name = some f → "this" ∉ f.decl.words ∧ f.isInitializer = marked name

structure Class.Proper (c : Class) : Prop where
  methods : Listed (· == "init") c.methods
  classMethods : Listed (fun _ => false) c.classMethods

structure Heap.Proper (h : Heap) : Prop where
  functions : ∀ id f, h.callable? id = some (.function f) → h.Equipped f
  classes : ∀ id c, h.class? id = some c → c.Proper

structure Heap.Lasts (h h' : Heap) : Prop where
  receivers : ∀ {frame value}, h.frames.get? frame "this" = some value → h'.frames.get? frame "this" = some value
  instances : ∀ {id i}, h.instance? id = some i → ∃ now, h'.instance? id = some now ∧ now.cls = i.cls

namespace Heap.Lasts
variable {h h' : Heap}

theorem refl (h : Heap) : h.Lasts h := ⟨id, fun found => ⟨_, found, rfl⟩⟩

theorem trans {h'' : Heap} (first : h.Lasts h') (second : h'.Lasts h'') : h.Lasts h'' := by
  refine ⟨fun found => second.receivers (first.receivers found), ?_⟩
  intro id i found
  obtain ⟨now, found', same⟩ := first.instances found
  obtain ⟨now', found'', same'⟩ := second.instances found'
  exact ⟨now', found'', same'.trans same⟩

theorem equipped {f : Function} (lasts : h.Lasts h') (old : h.Equipped f) : h'.Equipped f := by
  refine ⟨old.spared, ?_⟩
  intro initializer
  obtain ⟨x, bound⟩ := old.receiver initializer
  exact ⟨x, lasts.receivers bound⟩

theorem equippedCallee {callee : Callee} (lasts : h.Lasts h') (old : h.EquippedCallee callee) :
    h'.EquippedCallee callee := by
  rcases callee with (f | n) | cls
  · exact lasts.equipped old
  · trivial
  · trivial

end Heap.Lasts

theorem Heap.Proper.extend {h h' : Heap} (old : h.Proper) (lasts : h.Lasts h')
    (functions : ∀ id f, h'.callable? id = some (.function f) → h.callable? id = some (.function f) ∨ h'.Equipped f)
    (classes : ∀ id c, h'.class? id = some c → h.class? id = some c ∨ c.Proper) : h'.Proper := by
  constructor
  · intro id f found
    obtain before | new := functions id f found
    · exact lasts.equipped (old.functions id f before)
    · exact new
  · intro id c found
    obtain before | new := classes id c found
    · exact old.classes id c before
    · exact new

theorem Heap.Proper.callee {h : Heap} (proper : h.Proper) {value : Value} {callee : Callee}
    (found : h.callee? value = some callee) : h.EquippedCallee callee := by
  cases value with
  | function id =>
    obtain ⟨c, here, rfl⟩ := Option.map_eq_some_iff.mp found
    cases c with
    | function f => exact proper.functions id f here
    | native n => trivial
  | classObject id =>
    cases found
    trivial
  | _ => cases found

theorem Heap.Proper.found {h : Heap} (proper : h.Proper) {cls : ClassId} {name : String} {f : Function}
    (found : h.findMethod? cls name = some f) : "this" ∉ f.decl.words ∧ f.isInitializer = (name == "init") := by
  obtain ⟨holder, c, _, here, held, _⟩ := Heap.foundAlong (fun _ => .empty) found
  exact (proper.classes holder c here).methods name f held

theorem Heap.Proper.foundOwn {h : Heap} (proper : h.Proper) {cls : ClassId} {name : String} {f : Function}
    (found : h.findClassMethod? cls name = some f) : h.Equipped f := by
  obtain ⟨holder, c, _, here, held, _⟩ := Heap.foundAlong (fun _ => .empty) found
  obtain ⟨spared, plain⟩ := (proper.classes holder c here).classMethods name f held
  exact ⟨spared, fun initializer => absurd (plain.symm.trans initializer) Bool.false_ne_true⟩

structure Advances (m m' : Machine) : Prop where
  proper : m'.heap.Proper
  lasts : m.heap.Lasts m'.heap

namespace Advances
variable {m m' : Machine}

theorem refl (proper : m.heap.Proper) : Advances m m := ⟨proper, .refl m.heap⟩

theorem trans {m'' : Machine} (first : Advances m m') (second : Advances m' m'') : Advances m m'' :=
  ⟨second.proper, first.lasts.trans second.lasts⟩

theorem sameHeap (proper : m.heap.Proper) (same : m'.heap = m.heap) : Advances m m' := by
  constructor
  · rw [same]
    exact proper
  · rw [same]
    exact .refl m.heap

theorem define {frame : FrameId} {name : String} (proper : m.heap.Proper)
    (free : name = "this" → m.heap.frames.get? frame "this" = none) (value : Value) :
    Advances m (m.define frame name value) := by
  have lasts : m.heap.Lasts (m.define frame name value).heap :=
    ⟨fun found => Frames.getDefineKept free value found, fun found => ⟨_, found, rfl⟩⟩
  exact ⟨proper.extend lasts (fun _ _ found => .inl found) (fun _ _ found => .inl found), lasts⟩

theorem defineOther {frame : FrameId} {name : String} (proper : m.heap.Proper) (other : name ≠ "this")
    (value : Value) : Advances m (m.define frame name value) :=
  define proper (fun same => absurd same other) value

theorem addFrame (proper : m.heap.Proper) (parent : FrameId) : Advances m (m.addFrame parent) := by
  have lasts : m.heap.Lasts (m.addFrame parent).heap := by
    refine ⟨?_, fun found => ⟨_, found, rfl⟩⟩
    intro frame value found
    have old : frame ≠ m.heap.frames.nextId := by
      intro same
      rw [same, Frames.get?, Frames.frameFresh] at found
      cases found
    exact (Frames.getAdd m.heap.frames _ frame "this").trans ((if_neg old).trans found)
  exact ⟨proper.extend lasts (fun _ _ found => .inl found) (fun _ _ found => .inl found), lasts⟩

theorem addFunction (proper : m.heap.Proper) {f : Function} (equipped : m.heap.Equipped f) :
    Advances m (m.addCallable (.function f)) := by
  have lasts : m.heap.Lasts (m.addCallable (.function f)).heap := ⟨id, fun found => ⟨_, found, rfl⟩⟩
  refine ⟨proper.extend lasts ?_ (fun _ _ found => .inl found), lasts⟩
  intro id other found
  have now : (m.heap.callables.push (.function f))[id.index]? = some (.function other) := found
  rw [Array.getElem?_push] at now
  split at now
  · cases now
    exact .inr (lasts.equipped equipped)
  · exact .inl now

theorem addClass (proper : m.heap.Proper) {c : Class} (new : c.Proper) : Advances m (m.addClass c) := by
  have lasts : m.heap.Lasts (m.addClass c).heap := ⟨id, fun found => ⟨_, found, rfl⟩⟩
  refine ⟨proper.extend lasts (fun _ _ found => .inl found) ?_, lasts⟩
  intro id other found
  have now : (m.heap.classes.push c)[id.index]? = some other := found
  rw [Array.getElem?_push] at now
  split at now
  · cases now
    exact .inr new
  · exact .inl now

theorem addInstance (proper : m.heap.Proper) (i : Instance) : Advances m (m.addInstance i) := by
  have lasts : m.heap.Lasts (m.addInstance i).heap := ⟨id, fun found => Machine.addInstanceKept found i⟩
  exact ⟨proper.extend lasts (fun _ _ found => .inl found) (fun _ _ found => .inl found), lasts⟩

theorem setField (proper : m.heap.Proper) (id : InstanceId) (name : String) (value : Value) :
    Advances m (m.setField id name value) := by
  have lasts : m.heap.Lasts (m.setField id name value).heap :=
    ⟨fun found => found, fun found => Machine.setFieldKept found id name value⟩
  exact ⟨proper.extend lasts (fun _ _ found => .inl found) (fun _ _ found => .inl found), lasts⟩

end Advances

structure BoundTo (f : Function) (x : InstanceId) (m : Machine) (bound : Function) (before : Machine) : Prop where
  runs : f.bind x m = .ok bound before
  moves : Advances m before
  decl : bound.decl = f.decl
  mark : bound.isInitializer = f.isInitializer
  receiver : before.heap.frames.get? bound.closure "this" = some (.instanceObject x)

theorem bindEnds {m : Machine} (proper : m.heap.Proper) (f : Function) (x : InstanceId) :
    BoundTo f x m { f with closure := m.heap.frames.nextId }
      ((m.addFrame f.closure).define m.heap.frames.nextId "this" (.instanceObject x)) := by
  have added := Advances.addFrame proper f.closure
  have free : (m.addFrame f.closure).heap.frames.get? m.heap.frames.nextId "this" = none :=
    (Frames.getAdd m.heap.frames _ m.heap.frames.nextId "this").trans (if_pos rfl)
  refine ⟨rfl, added.trans (.define added.proper (fun _ => free) _), rfl, rfl, ?_⟩
  refine (Frames.getDefine _ m.heap.frames.nextId m.heap.frames.nextId "this" "this" _).trans ?_
  rw [if_pos ⟨rfl, rfl⟩]
  exact congrArg (Option.map _) ((Frames.frameAdd m.heap.frames _ _).trans (if_pos rfl))

theorem BoundTo.equipped {f bound : Function} {x : InstanceId} {m before : Machine} (b : BoundTo f x m bound before)
    (spared : "this" ∉ f.decl.words) : before.heap.Equipped bound := by
  refine ⟨?_, fun _ => ⟨x, b.receiver⟩⟩
  rw [b.decl]
  exact spared

end Treewalk
