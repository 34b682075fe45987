import Treewalk.Proofs.Mirror.Classes
import Treewalk.Proofs.Invariant.Spared

/-! Where receivers come from. A frame gets `this` when a method is bound: at an access of a property, or for the
instance that a call makes. `Tracked` says of every function that comes from a method, and of every activation of one,
that the frame around it is such a frame, and that the record has what bound the method and what made its class. -/
namespace Treewalk

structure BoundMethod where
  receiver : InstanceId
  holder : ClassId
  name : String
  method : Function
  frame : FrameId

def BoundMethod.value (b : BoundMethod) : Function := { b.method with closure := b.frame }

namespace Event

/- The node is an access of a property. Its object is the receiver, and in the receiver's class the name leads to the
method, which is bound in a new frame. -/
def Accesses (e : Event) (b : BoundMethod) : Prop :=
  ∃ limit object property m i id m', e.moment = .reached ∧ e.node = .expr (.get object property) ∧
    property.name = b.name ∧ (evaluator limit).eval object e.machine = .ok (.instanceObject b.receiver) m ∧
    m.heap.instance? b.receiver = some i ∧ m.heap.findMethod? i.cls b.name = some b.method ∧
    b.frame = m.heap.frames.nextId ∧ Run.instanceProperty b.receiver property m = .ok (.function id) m' ∧
    m'.heap.callable? id = some (.function b.value)

def Calls (e : Event) (cls : ClassId) (h : Heap) : Prop :=
  ∃ limit callee arguments line values m m', e.moment = .reached ∧ e.node = .expr (.call callee arguments line) ∧
    (evaluator limit).eval callee e.machine = .ok (.classObject cls) m ∧
    (evaluator limit).evalAll arguments m = .ok values m' ∧ m'.heap = h

def Constructs (e : Event) (b : BoundMethod) : Prop :=
  ∃ cls h, e.Calls cls h ∧ b.receiver = ⟨h.instances.size⟩ ∧ b.name = "init" ∧
    h.findMethod? cls "init" = some b.method ∧ b.frame = h.frames.nextId

def Creates (e : Event) (address : Address) (decl : ClassDecl) (cls : ClassId) (c : Class) : Prop :=
  ∃ limit superclass m, e.moment = .reached ∧ e.address = some address ∧ e.node = .stmt (.classDecl decl) ∧
    (evaluator limit).superclass decl.superclass e.machine = .ok superclass m ∧ cls = ⟨m.heap.classes.size⟩ ∧
    c = ⟨decl.name.name, superclass, methodTable m.environment FunctionDecl.isInitializer decl.methods,
      methodTable m.heap.frames.nextId (fun _ => false) decl.classMethods⟩

end Event

/- The method with the given number in the class declared at `outer` is bound to its receiver: the frame has `this`,
the receiver's class is or inherits from the class that has the method, and the record has what made that class and
what bound the method. -/
structure BoundMethod.Right (b : BoundMethod) (events : List Event) (h : Heap) (index : Nat) (outer : Address) :
    Prop where
  bound : h.frames.get? b.frame "this" = some (.instanceObject b.receiver)
  inherits : ∃ i, h.instance? b.receiver = some i ∧ h.Descends i.cls b.holder
  created : ∃ c decl, h.class? b.holder = some c ∧ c.methods.find? b.name = some b.method ∧
    decl.methods[index]? = some b.method.decl ∧ ∃ e ∈ events, e.Creates outer decl b.holder c
  taken : ∃ e ∈ events, e.Accesses b ∨ e.Constructs b

def Received (events : List Event) (h : Heap) (frame : FrameId) (index : Nat) (outer : Address) : Prop :=
  ∃ b : BoundMethod, b.frame = frame ∧ b.Right events h index outer

/- Around the parameters of a method is the frame of its receiver. -/
def Activated (events : List Event) (h : Heap) (sites : FrameId → Option Site) : Prop :=
  ∀ frame index outer, sites frame = some ⟨.method index :: outer, .parameters⟩ →
    ∃ parent, h.frames.parent? frame = some parent ∧ Received events h parent index outer

namespace Observed

def Tracks (s : Observed) (origin : Option Address) (f : Function) : Prop :=
  "this" ∉ f.decl.words ∧ ∀ index outer, origin = some (.method index :: outer) →
    Received s.shadow.events s.machine.heap f.closure index outer

def TracksMethod (s : Observed) (cls : ClassId) (c : Class) (origin : Option Address) (f : Function) : Prop :=
  "this" ∉ f.decl.words ∧ ∀ way, origin = some way → ∃ index outer decl, way = .method index :: outer ∧
    decl.methods[index]? = some f.decl ∧ ∃ e ∈ s.shadow.events, e.Creates outer decl cls c

structure TracksClass (s : Observed) (methods classMethods : Table Address) (cls : ClassId) (c : Class) : Prop where
  methods : ∀ name f, c.methods.find? name = some f → s.TracksMethod cls c (methods.find? name) f
  classMethods : ∀ name f, c.classMethods.find? name = some f → s.Tracks (classMethods.find? name) f

end Observed

structure Tracked (s : Observed) : Prop where
  functions : ∀ id f, s.machine.heap.callable? id = some (.function f) → s.Tracks (s.shadow.functions id) f
  classes : ∀ cls c, s.machine.heap.class? cls = some c →
    s.TracksClass (s.shadow.methods cls) (s.shadow.classMethods cls) cls c
  frames : Activated s.shadow.events s.machine.heap s.shadow.sites
  events : ∀ newer e older, s.shadow.events = newer ++ e :: older → Activated older e.machine.heap e.sites

structure Onward (s s' : Observed) : Prop where
  events : ∀ e ∈ s.shadow.events, e ∈ s'.shadow.events
  parents : ∀ {frame parent}, s.frames.parent? frame = some parent → s'.frames.parent? frame = some parent
  receivers : ∀ {frame value}, s.frames.get? frame "this" = some value → s'.frames.get? frame "this" = some value
  classes : ∀ {cls c}, s.machine.heap.class? cls = some c → s'.machine.heap.class? cls = some c
  instances : ∀ {id i}, s.machine.heap.instance? id = some i →
    ∃ now, s'.machine.heap.instance? id = some now ∧ now.cls = i.cls

namespace Onward

theorem refl (s : Observed) : Onward s s := ⟨fun _ member => member, id, id, id, fun found => ⟨_, found, rfl⟩⟩

theorem trans {s s' s'' : Observed} (first : Onward s s') (second : Onward s' s'') : Onward s s'' := by
  refine ⟨fun e member => second.events e (first.events e member), fun found => second.parents (first.parents found),
    fun found => second.receivers (first.receivers found), fun found => second.classes (first.classes found), ?_⟩
  intro id i found
  obtain ⟨now, found', same⟩ := first.instances found
  obtain ⟨now', found'', same'⟩ := second.instances found'
  exact ⟨now', found'', same'.trans same⟩

theorem alike {s : Observed} {m : Machine} (frames : m.heap.frames = s.frames)
    (classes : m.heap.classes = s.machine.heap.classes)
    (instances : ∀ {id i}, s.machine.heap.instance? id = some i →
      ∃ now, m.heap.instance? id = some now ∧ now.cls = i.cls) : Onward s { s with machine := m } := by
  have same : Observed.frames { s with machine := m } = s.frames := frames
  refine ⟨fun _ member => member, ?_, ?_, ?_, instances⟩
  · intro frame parent found
    rwa [same]
  · intro frame value found
    rwa [same]
  · intro cls c found
    simpa only [Heap.class?, classes] using found

theorem sameHeap {s : Observed} {m : Machine} (same : m.heap = s.machine.heap) : Onward s { s with machine := m } := by
  refine alike (congrArg Heap.frames same) (congrArg Heap.classes same) ?_
  intro id i found
  rw [same]
  exact ⟨i, found, rfl⟩

end Onward

section Onward
variable {s s' : Observed}

theorem Heap.Descends.onward {id ancestor : ClassId} (descends : s.machine.heap.Descends id ancestor)
    (onward : Onward s s') : s'.machine.heap.Descends id ancestor := by
  induction descends with
  | same id => exact .same id
  | above here link rest ih => exact .above (onward.classes here) link ih

theorem BoundMethod.Right.onward {b : BoundMethod} {index : Nat} {outer : Address}
    (right : b.Right s.shadow.events s.machine.heap index outer) (onward : Onward s s') :
    b.Right s'.shadow.events s'.machine.heap index outer := by
  obtain ⟨bound, ⟨i, found, descends⟩, ⟨c, decl, here, held, numbered, e, member, creates⟩, e', member', taken⟩ := right
  obtain ⟨now, found', same⟩ := onward.instances found
  refine ⟨onward.receivers bound, ⟨now, found', ?_⟩, ?_, e', onward.events e' member', taken⟩
  · rw [same]
    exact descends.onward onward
  · exact ⟨c, decl, onward.classes here, held, numbered, e, onward.events e member, creates⟩

theorem Received.onward {frame : FrameId} {index : Nat} {outer : Address}
    (received : Received s.shadow.events s.machine.heap frame index outer) (onward : Onward s s') :
    Received s'.shadow.events s'.machine.heap frame index outer := by
  obtain ⟨b, same, right⟩ := received
  exact ⟨b, same, right.onward onward⟩

theorem Observed.Tracks.onward {origin : Option Address} {f : Function} (tracks : s.Tracks origin f)
    (onward : Onward s s') : s'.Tracks origin f :=
  ⟨tracks.1, fun index outer same => (tracks.2 index outer same).onward onward⟩

theorem Observed.TracksClass.onward {methods classMethods : Table Address} {cls : ClassId} {c : Class}
    (tracks : s.TracksClass methods classMethods cls c) (onward : Onward s s') :
    s'.TracksClass methods classMethods cls c := by
  refine ⟨?_, fun name f found => (tracks.classMethods name f found).onward onward⟩
  intro name f found
  obtain ⟨spared, known⟩ := tracks.methods name f found
  refine ⟨spared, ?_⟩
  intro way same
  obtain ⟨index, outer, decl, split, numbered, e, member, creates⟩ := known way same
  exact ⟨index, outer, decl, split, numbered, e, onward.events e member, creates⟩

theorem Tracked.extend (old : Tracked s) (onward : Onward s s')
    (functions : ∀ id f, s'.machine.heap.callable? id = some (.function f) →
      (s.machine.heap.callable? id = some (.function f) ∧ s'.shadow.functions id = s.shadow.functions id) ∨
      s'.Tracks (s'.shadow.functions id) f)
    (classes : ∀ cls c, s'.machine.heap.class? cls = some c →
      (s.machine.heap.class? cls = some c ∧ s'.shadow.methods cls = s.shadow.methods cls ∧
        s'.shadow.classMethods cls = s.shadow.classMethods cls) ∨
      s'.TracksClass (s'.shadow.methods cls) (s'.shadow.classMethods cls) cls c)
    (frames : ∀ frame index outer, s'.shadow.sites frame = some ⟨.method index :: outer, .parameters⟩ →
      s.shadow.sites frame = some ⟨.method index :: outer, .parameters⟩ ∨
      ∃ parent, s'.frames.parent? frame = some parent ∧
        Received s'.shadow.events s'.machine.heap parent index outer)
    (events : s'.shadow.events = s.shadow.events) : Tracked s' := by
  constructor
  · intro id f found
    obtain ⟨before, same⟩ | new := functions id f found
    · rw [same]
      exact (old.functions id f before).onward onward
    · exact new
  · intro cls c found
    obtain ⟨before, same, same'⟩ | new := classes cls c found
    · rw [same, same']
      exact (old.classes cls c before).onward onward
    · exact new
  · intro frame index outer site
    obtain before | new := frames frame index outer site
    · obtain ⟨parent, link, received⟩ := old.frames frame index outer before
      exact ⟨parent, onward.parents link, received.onward onward⟩
    · exact new
  · rw [events]
    exact old.events

end Onward

section Instances
variable {m : Machine} {id : InstanceId} {old : Instance}

theorem Machine.addInstanceKept (found : m.heap.instance? id = some old) (new : Instance) :
    ∃ now, (m.addInstance new).heap.instance? id = some now ∧ now.cls = old.cls := by
  obtain ⟨inside, same⟩ := Array.getElem?_eq_some_iff.mp found
  exact ⟨old, (Array.getElem?_push_lt inside).trans (congrArg some same), rfl⟩

theorem Machine.setFieldKept (found : m.heap.instance? id = some old) (changed : InstanceId) (name : String)
    (value : Value) : ∃ now, (m.setField changed name value).heap.instance? id = some now ∧ now.cls = old.cls := by
  have now : (m.heap.instances.modify changed.index fun i =>
      { i with fields := i.fields.insert name value })[id.index]? = _ := Array.getElem?_modify
  by_cases same : changed.index = id.index
  · rw [if_pos same] at now
    exact ⟨_, now.trans (congrArg (Option.map _) found), rfl⟩
  · rw [if_neg same] at now
    exact ⟨old, now.trans found, rfl⟩

end Instances

structure Proceeds (s s' : Observed) : Prop where
  tracked : Tracked s'
  onward : Onward s s'

namespace Proceeds
variable {s s' : Observed}

theorem refl (tracked : Tracked s) : Proceeds s s := ⟨tracked, .refl s⟩

theorem trans {s'' : Observed} (first : Proceeds s s') (second : Proceeds s' s'') : Proceeds s s'' :=
  ⟨second.tracked, first.onward.trans second.onward⟩

/- All that is tracked is in the heap and the shadow; in the heap, what an instance holds does not matter. -/
theorem alike {m : Machine} (tracked : Tracked s) (frames : m.heap.frames = s.frames)
    (callables : m.heap.callables = s.machine.heap.callables) (classes : m.heap.classes = s.machine.heap.classes)
    (instances : ∀ {id i}, s.machine.heap.instance? id = some i →
      ∃ now, m.heap.instance? id = some now ∧ now.cls = i.cls) : Proceeds s { s with machine := m } := by
  have onward : Onward s { s with machine := m } := .alike frames classes instances
  refine ⟨tracked.extend onward ?_ ?_ (fun _ _ _ site => .inl site) rfl, onward⟩
  · intro id f found
    simp only [Heap.callable?, callables] at found
    exact .inl ⟨found, rfl⟩
  · intro cls c found
    simp only [Heap.class?, classes] at found
    exact .inl ⟨found, rfl, rfl⟩

theorem sameHeap {m : Machine} (tracked : Tracked s) (same : m.heap = s.machine.heap) :
    Proceeds s { s with machine := m } := by
  refine alike tracked (congrArg Heap.frames same) (congrArg Heap.callables same) (congrArg Heap.classes same) ?_
  intro id i found
  rw [same]
  exact ⟨i, found, rfl⟩

theorem record (tracked : Tracked s) (address : Option Address) (node : Phrase) (moment : Moment) :
    Proceeds s (s.record address node moment) := by
  have onward : Onward s (s.record address node moment) :=
    ⟨fun _ member => List.mem_cons_of_mem _ member, id, id, id, fun found => ⟨_, found, rfl⟩⟩
  refine ⟨⟨?_, ?_, ?_, ?_⟩, onward⟩
  · exact fun id f found => (tracked.functions id f found).onward onward
  · exact fun cls c found => (tracked.classes cls c found).onward onward
  · intro frame index outer site
    obtain ⟨parent, link, received⟩ := tracked.frames frame index outer site
    exact ⟨parent, link, received.onward onward⟩
  · intro newer e older split
    cases newer with
    | nil =>
      -- the new event shows the frames as they are, with all of the old record before it
      cases split
      exact tracked.frames
    | cons first newer => exact tracked.events newer e older (List.cons.inj split).2

theorem define {frame : FrameId} {name : String} (tracked : Tracked s)
    (free : name = "this" → s.frames.get? frame "this" = none) (value : Value) :
    Proceeds s (s.define frame name value) := by
  have onward : Onward s (s.define frame name value) :=
    ⟨fun _ member => member, (Setting.growsDefine s frame name value).parent,
      fun found => Frames.getDefineKept free value found, id, fun found => ⟨_, found, rfl⟩⟩
  exact ⟨tracked.extend onward (fun _ _ found => .inl ⟨found, rfl⟩) (fun _ _ found => .inl ⟨found, rfl, rfl⟩)
    (fun _ _ _ site => .inl site) rfl, onward⟩

theorem addFrame {parent : FrameId} {site : Option Site} (tracked : Tracked s)
    (known : ∀ index outer, site = some ⟨.method index :: outer, .parameters⟩ →
      Received s.shadow.events s.machine.heap parent index outer) : Proceeds s (s.addFrame parent site) := by
  have onward : Onward s (s.addFrame parent site) := by
    refine ⟨fun _ member => member, (Setting.growsAddFrame s parent site).parent, ?_, id,
      fun found => ⟨_, found, rfl⟩⟩
    intro frame value found
    have old : frame ≠ s.frames.nextId := by
      intro same
      rw [same, Frames.get?, Frames.frameFresh] at found
      cases found
    exact (Frames.getAdd s.frames _ frame "this").trans ((if_neg old).trans found)
  refine ⟨tracked.extend onward (fun _ _ found => .inl ⟨found, rfl⟩) (fun _ _ found => .inl ⟨found, rfl, rfl⟩) ?_ rfl,
    onward⟩
  intro frame index outer here
  by_cases new : frame = s.frames.nextId
  · subst new
    rw [Setting.addedSite] at here
    have link : (s.addFrame parent site).frames.parent? s.frames.nextId = some parent := by
      simp [Frames.parent?, Setting.addedFrame s parent site]
    exact .inr ⟨parent, link, (known index outer here).onward onward⟩
  · exact .inl ((if_neg new).symm.trans here)

theorem addFunction {f : Function} {origin : Option Address} (tracked : Tracked s) (tracks : s.Tracks origin f) :
    Proceeds s (s.addFunction (.function f) origin) := by
  have onward : Onward s (s.addFunction (.function f) origin) :=
    ⟨fun _ member => member, id, id, id, fun found => ⟨_, found, rfl⟩⟩
  refine ⟨tracked.extend onward ?_ (fun _ _ found => .inl ⟨found, rfl, rfl⟩) (fun _ _ _ site => .inl site) rfl, onward⟩
  intro id f' found
  obtain before | ⟨new, traced⟩ := Setting.callableAdded found
  · exact .inl before
  · cases new
    rw [traced]
    exact .inr (tracks.onward onward)

theorem addClass {c : Class} {methods classMethods : Table Address} (tracked : Tracked s)
    (tracks : s.TracksClass methods classMethods ⟨s.machine.heap.classes.size⟩ c) :
    Proceeds s (s.addClass c methods classMethods) := by
  have onward : Onward s (s.addClass c methods classMethods) := by
    refine ⟨fun _ member => member, id, id, ?_, fun found => ⟨_, found, rfl⟩⟩
    intro cls c' found
    obtain ⟨inside, same⟩ := Array.getElem?_eq_some_iff.mp found
    exact (Array.getElem?_push_lt inside).trans (congrArg some same)
  refine ⟨tracked.extend onward (fun _ _ found => .inl ⟨found, rfl⟩) ?_ (fun _ _ _ site => .inl site) rfl, onward⟩
  intro cls c' found
  by_cases new : cls = ⟨s.machine.heap.classes.size⟩
  · subst new
    have here : (s.addClass c methods classMethods).machine.heap.class? ⟨s.machine.heap.classes.size⟩ = some c :=
      Array.getElem?_push_size
    cases here.symm.trans found
    refine .inr ?_
    change Observed.TracksClass _ (if _ then methods else _) (if _ then classMethods else _) _ _
    rw [if_pos rfl, if_pos rfl]
    exact tracks.onward onward
  · have other : cls.index ≠ s.machine.heap.classes.size := fun same => new (congrArg ClassId.mk same)
    have before : s.machine.heap.class? cls = some c' := by
      have pushed : (s.machine.heap.classes.push c)[cls.index]? = some c' := found
      rwa [Array.getElem?_push, if_neg other] at pushed
    exact .inl ⟨before, if_neg new, if_neg new⟩

end Proceeds

end Treewalk
