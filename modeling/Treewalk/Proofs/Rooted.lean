import Treewalk.Proofs.History
import Treewalk.Proofs.Mirror.Sessions
import Treewalk.Proofs.Receivers

/-! The links of a heap lead somewhere. Every link goes from a newer object to an older one: a frame is made inside a
frame that is there, a class below a class that is there. So all frames are inside the global one, every line of
superclasses has an end, and a search along either kind of link finds its answer without a bound. -/
namespace Treewalk

/- A chain of frames ends at the outermost frame, and that is the one the bounded search gives. -/
structure Frames.EndsAt (fs : Frames) (id root : FrameId) : Prop where
  reaches : ∃ depth, fs.ancestor? id depth = some root
  top : fs.parent? root = none
  outermost : fs.outermost id = root

inductive Heap.Search (h : Heap) (table : Class → Table Function) (name : String) : ClassId → Option Function → Prop where
  | found {id c f} (here : h.class? id = some c) (bound : (table c).find? name = some f) : Search h table name id (some f)
  | missing {id c} (here : h.class? id = some c) (unbound : (table c).find? name = none) (top : c.superclass = none) :
      Search h table name id none
  | above {id c superclass result} (here : h.class? id = some c) (unbound : (table c).find? name = none)
      (link : c.superclass = some superclass) (rest : Search h table name superclass result) : Search h table name id result

structure Machine.Rooted (m : Machine) : Prop where
  environment : m.heap.frames.EndsAt m.environment m.globals
  frames : ∀ id f, m.heap.frames.frame? id = some f → m.heap.frames.EndsAt id m.globals
  functions : ∀ id f, m.heap.callable? id = some (.function f) → m.heap.frames.EndsAt f.closure m.globals
  methods : ∀ id c name f, m.heap.class? id = some c →
    c.methods.find? name = some f ∨ c.classMethods.find? name = some f → m.heap.frames.EndsAt f.closure m.globals
  superclasses : ∀ id c, m.heap.class? id = some c → ∃ last top, m.heap.Descends id last ∧
    m.heap.class? last = some top ∧ top.superclass = none
  searches : ∀ id c name, m.heap.class? id = some c →
    m.heap.Search Class.methods name id (m.heap.findMethod? id name) ∧
    m.heap.Search Class.classMethods name id (m.heap.findClassMethod? id name)
  instances : ∀ id i, m.heap.instance? id = some i → ∃ c, m.heap.class? i.cls = some c

/- A function of the host that gives back nothing but what there is. -/
def Native.Tame (n : Native) : Prop := ∀ (m : Machine) (arguments : List Value) (value : Value),
  (∀ a ∈ arguments, a.Known m.heap.Holds) → n.run m.hostView arguments = .ok value → value.Known m.heap.Holds

/- Nothing refers to an object that is not there, and links lead to older objects. -/
structure Heap.Ordered (root : FrameId) (h : Heap) : Prop where
  closed : ∀ {node other}, h.Refers node other → h.Holds other
  present : h.Holds (.frame root)
  top : ∀ {f}, h.frames.frame? root = some f → f.parent = none
  parents : ∀ {id f}, h.frames.frame? id = some f → id ≠ root → ∃ parent, f.parent = some parent ∧ parent.index < id.index
  superclasses : ∀ {id c superclass}, h.class? id = some c → c.superclass = some superclass → superclass.index < id.index
  natives : ∀ {id n}, h.callable? id = some (.native n) → n.Tame

section Bounds
variable {h : Heap}

theorem frameObject {id : FrameId} {f : Frame} (found : h.frames.frame? id = some f) :
    h.object? (.frame id) = some (.frame f) := congrArg (Option.map Object.frame) found

theorem functionObject {id : FunctionId} {c : Callable} (found : h.callable? id = some c) :
    h.object? (.function id) = some (.callable c) := congrArg (Option.map Object.callable) found

theorem classObject {id : ClassId} {c : Class} (found : h.class? id = some c) :
    h.object? (.classObject id) = some (.classObject c) := congrArg (Option.map Object.classObject) found

theorem instanceObject {id : InstanceId} {i : Instance} (found : h.instance? id = some i) :
    h.object? (.instanceObject id) = some (.instanceObject i) := congrArg (Option.map Object.instanceObject) found

theorem heldFrame {id : FrameId} (held : h.Holds (.frame id)) : ∃ f, h.frames.frame? id = some f := by
  obtain ⟨object, found⟩ := held
  obtain ⟨f, here, _⟩ := Option.map_eq_some_iff.mp found
  exact ⟨f, here⟩

theorem heldClass {id : ClassId} (held : h.Holds (.classObject id)) : ∃ c, h.class? id = some c := by
  obtain ⟨object, found⟩ := held
  obtain ⟨c, here, _⟩ := Option.map_eq_some_iff.mp found
  exact ⟨c, here⟩

theorem frameBound {id : FrameId} (held : h.Holds (.frame id)) : id.index < h.frames.cells.size := by
  obtain ⟨f, here⟩ := heldFrame held
  exact (Array.getElem?_eq_some_iff.mp here).1

theorem classBound {id : ClassId} {c : Class} (found : h.class? id = some c) : id.index < h.classes.size :=
  (Array.getElem?_eq_some_iff.mp found).1

end Bounds

namespace Heap.Ordered
variable {root : FrameId} {h h' : Heap}

theorem frames (change : h.Change h.Holds h') {id : FrameId} {f : Frame} (found : h'.frames.frame? id = some f) :
    (∃ old, h.frames.frame? id = some old ∧ f.parent = old.parent) ∨
    (id = h.frames.nextId ∧ ∃ parent, f.parent = some parent ∧ parent.index < id.index) := by
  cases change with
  | @frame parent link =>
    rw [Frames.addChild, Frames.frameAdd] at found
    split at found
    · rename_i new
      cases found
      refine .inr ⟨new, parent, rfl, ?_⟩
      rw [new]
      exact frameBound link
    · exact .inl ⟨f, found, rfl⟩
  | binding here held =>
    rw [Frames.frameDefine] at found
    split at found
    · rename_i same
      obtain ⟨old, before, rfl⟩ := Option.map_eq_some_iff.mp found
      exact .inl ⟨old, same ▸ before, rfl⟩
    · exact .inl ⟨f, found, rfl⟩
  | function link => exact .inl ⟨f, found, rfl⟩
  | classObject links => exact .inl ⟨f, found, rfl⟩
  | instanceObject link => exact .inl ⟨f, found, rfl⟩
  | field here held => exact .inl ⟨f, found, rfl⟩

theorem classes (change : h.Change h.Holds h') {id : ClassId} {c : Class} (found : h'.class? id = some c) :
    h.class? id = some c ∨ ∀ superclass, c.superclass = some superclass → superclass.index < id.index := by
  cases change with
  | @classObject new links =>
    obtain ⟨index⟩ := id
    simp only [class?, Array.getElem?_push] at found
    split at found
    · rename_i same
      cases found
      refine .inr fun superclass link => ?_
      obtain ⟨above, here⟩ := heldClass (links _ (.superclass link))
      rw [same]
      exact classBound here
    · exact .inl found
  | _ => exact .inl found

theorem changed (ordered : h.Ordered root) (change : h.Change h.Holds h') : h'.Ordered root := by
  refine ⟨?_, change.holds ordered.present, ?_, ?_, ?_, fun found => ordered.natives (change.native found)⟩
  · intro node other refers
    obtain known | before := change.refers refers
    · exact change.holds known
    · exact change.holds (ordered.closed before)
  · intro f found
    obtain ⟨old, before, same⟩ | ⟨new, _⟩ := frames change found
    · exact same.trans (ordered.top before)
    · have bound := frameBound ordered.present
      rw [new] at bound
      exact absurd bound (Nat.lt_irrefl _)
  · intro id f found other
    obtain ⟨old, before, same⟩ | ⟨_, older⟩ := frames change found
    · rw [same]
      exact ordered.parents before other
    · exact older
  · intro id c superclass found link
    obtain before | new := classes change found
    · exact ordered.superclasses before link
    · exact new superclass link

theorem installed (ordered : h.Ordered root) {n : Native} (tame : n.Tame) :
    Heap.Ordered root { h with callables := h.callables.push (.native n) } := by
  have retains := Heap.Retains.addCallable h (.native n)
  refine ⟨?_, retains.holds ordered.present, ordered.top, ordered.parents, ordered.superclasses, ?_⟩
  · rintro node other ⟨object, found, named⟩
    rw [functionAdded] at found
    split at found
    · cases found
      cases named
    · exact retains.holds (ordered.closed ⟨object, found, named⟩)
  · intro id other found
    simp only [callable?, Array.getElem?_push] at found
    split at found
    · cases found
      exact tame
    · exact ordered.natives found

section Chains
variable (ordered : h.Ordered root)
include ordered

/- By induction on the place of a frame: its parent has a lower one. -/
theorem ancestor {id : FrameId} (held : h.Holds (.frame id)) :
    ∃ depth, depth ≤ id.index ∧ h.frames.ancestor? id depth = some root := by
  generalize place : id.index = index
  induction index using Nat.strongRecOn generalizing id with
  | _ index ih =>
    subst place
    by_cases here : id = root
    · exact ⟨0, Nat.zero_le _, congrArg some here⟩
    · obtain ⟨f, frame⟩ := heldFrame held
      obtain ⟨parent, link, older⟩ := ordered.parents frame here
      have around : h.Holds (.frame parent) := ordered.closed ⟨.frame f, frameObject frame, .parent link⟩
      obtain ⟨depth, short, reached⟩ := ih parent.index older around rfl
      refine ⟨depth + 1, by omega, ?_⟩
      have up : h.frames.parent? id = some parent := by rw [Frames.parent?, frame, Option.bind_some, link]
      rw [Frames.ancestor?, up, Option.bind_some, reached]

theorem rootParent : h.frames.parent? root = none := by
  obtain ⟨f, frame⟩ := heldFrame ordered.present
  rw [Frames.parent?, frame, Option.bind_some, ordered.top frame]

theorem endsAt {id : FrameId} (held : h.Holds (.frame id)) : h.frames.EndsAt id root := by
  obtain ⟨depth, short, reached⟩ := ordered.ancestor held
  have inside := frameBound held
  have climbs : ∀ (steps depth : Nat) (id : FrameId), depth ≤ steps → h.frames.ancestor? id depth = some root →
      h.frames.climb steps id = root := by
    intro steps
    induction steps with
    | zero =>
      intro depth id few reached
      cases Nat.le_zero.mp few
      exact Option.some.inj reached
    | succ steps ih =>
      intro depth id few reached
      cases depth with
      | zero =>
        cases Option.some.inj reached
        exact Frames.climbTop ordered.rootParent _
      | succ depth =>
        obtain ⟨parent, link, rest⟩ := Option.bind_eq_some_iff.mp reached
        rw [Frames.climb, link]
        exact ih depth parent (Nat.le_of_succ_le_succ few) rest
  exact ⟨⟨depth, reached⟩, ordered.rootParent, climbs _ depth id (by omega) reached⟩

theorem superclassHeld {id superclass : ClassId} {c : Class} (found : h.class? id = some c)
    (link : c.superclass = some superclass) : ∃ above, h.class? superclass = some above :=
  heldClass (ordered.closed ⟨_, classObject found, .superclass link⟩)

/- As many steps are enough as there are classes up to this one. -/
theorem search (table : Class → Table Function) (name : String) {steps : Nat} {id : ClassId} {c : Class}
    (found : h.class? id = some c) (enough : id.index < steps) :
    h.Search table name id (h.findAlong table name steps id) := by
  induction steps generalizing id c with
  | zero => cases enough
  | succ steps ih =>
    unfold findAlong
    simp only [found]
    split
    · rename_i f _ bound
      exact .found found bound
    · rename_i superclass unbound link
      obtain ⟨above, here⟩ := ordered.superclassHeld found link
      have older := ordered.superclasses found link
      exact .above found unbound link (ih here (by omega))
    · rename_i unbound top
      exact .missing found unbound top

theorem descends {id : ClassId} {c : Class} (found : h.class? id = some c) :
    ∃ last top, h.Descends id last ∧ h.class? last = some top ∧ top.superclass = none := by
  generalize place : id.index = index
  induction index using Nat.strongRecOn generalizing id c with
  | _ index ih =>
    subst place
    cases link : c.superclass with
    | none => exact ⟨id, c, .same id, found, link⟩
    | some superclass =>
      obtain ⟨above, here⟩ := ordered.superclassHeld found link
      obtain ⟨last, top, descends, there, none⟩ := ih superclass.index (ordered.superclasses found link) here rfl
      exact ⟨last, top, .above found link descends, there, none⟩

end Chains

end Heap.Ordered

def Discipline.orderly (root : FrameId) : Discipline where
  Allows := Heap.Ordered root
  Sees := Heap.Holds
  Trusts := Native.Tame
  follow ordered _ refers := ordered.closed refers
  change ordered change := ordered.changed change
  keeps _ change held := change.holds held
  fresh _ _ _ held := held
  installed ordered found := ordered.natives found
  native _ tame given ran := tame _ _ _ given ran

theorem Discipline.orderlyAdmits (root : FrameId) : (orderly root).Admits := by
  intro m n ready tame
  have added : (m.addCallable (.native n)).heap.Ordered root := ready.allowed.installed tame
  have globals : (m.addCallable (.native n)).heap.Holds (.frame m.globals) :=
    (Heap.Retains.addCallable m.heap (.native n)).holds ready.globals
  have function : (Value.function ⟨m.heap.callables.size⟩).Known (m.addCallable (.native n)).heap.Holds := by
    intro node object
    cases object
    exact ⟨_, (m.heap.functionAdded _ (.native n)).trans (if_pos rfl)⟩
  have bound : (m.addCallable (.native n)).heap.Change (m.addCallable (.native n)).heap.Holds (m.install n).heap :=
    .binding globals function
  exact ⟨⟨rfl, rfl, rfl⟩, installRetains m n, ⟨added.changed bound, bound.holds globals⟩,
    fun _ held => (installRetains m n).heap.holds held⟩

theorem Discipline.Ready.rooted {m : Machine} (ready : (orderly m.globals).Ready m)
    (here : (orderly m.globals).Here m) : m.Rooted := by
  have ordered : m.heap.Ordered m.globals := ready.allowed
  refine ⟨ordered.endsAt here, fun id f found => ordered.endsAt ⟨_, frameObject found⟩, ?_, ?_,
    fun id c found => ordered.descends found, ?_, ?_⟩
  · intro id f found
    exact ordered.endsAt (ordered.closed ⟨_, functionObject found, .closure⟩)
  · intro id c name f found bound
    rcases bound with method | classMethod
    · exact ordered.endsAt (ordered.closed ⟨_, classObject found, .method method⟩)
    · exact ordered.endsAt (ordered.closed ⟨_, classObject found, .classMethod classMethod⟩)
  · intro id c name found
    have enough := classBound found
    exact ⟨ordered.search Class.methods name found enough, ordered.search Class.classMethods name found enough⟩
  · intro id i found
    exact heldClass (ordered.closed ⟨_, instanceObject found, .ofClass⟩)

theorem Native.clockTame : Native.clock.Tame := by
  intro m arguments value _ ran
  cases ran
  exact nofun

/- A machine that nothing has run on, whatever its clock shows and its writer does: a single frame, which binds what is
there, and no functions but the host's. -/
structure Machine.New (m : Machine) : Prop where
  idle : m.Idle
  fresh : m.Fresh
  single : ∀ {id f}, m.heap.frames.frame? id = some f → id = m.globals
  bindings : ∀ {f name value}, m.heap.frames.frame? m.globals = some f → f.bindings.find? name = some value →
    value.Known m.heap.Holds
  instances : ∀ {id i}, m.heap.instance? id ≠ some i
  natives : ∀ {id n}, m.heap.callable? id = some (.native n) → n.Tame

namespace Machine

theorem New.ordered {m : Machine} (new : m.New) : m.heap.Ordered m.globals := by
  obtain ⟨root, present, top⟩ := new.idle.root
  have parentless : ∀ {id f}, m.heap.frames.frame? id = some f → f.parent = none := by
    intro id f found
    have same : some f = some root := by rw [← found, new.single found, present]
    cases same
    exact top
  refine ⟨?_, ⟨_, frameObject present⟩, parentless, ?_, ?_, new.natives⟩
  · rintro (id | id | id | id) other ⟨object, found, named⟩
    · obtain ⟨f, here, rfl⟩ := Option.map_eq_some_iff.mp found
      cases named with
      | parent link => cases (parentless here).symm.trans link
      | binding bound object => exact new.bindings (new.single here ▸ here) bound _ object
    · obtain ⟨c, here, rfl⟩ := Option.map_eq_some_iff.mp found
      cases c with
      | function f => exact absurd here (new.fresh.functions id f)
      | native n => cases named
    · obtain ⟨c, here, rfl⟩ := Option.map_eq_some_iff.mp found
      exact absurd here (new.fresh.classes id c)
    · obtain ⟨i, here, rfl⟩ := Option.map_eq_some_iff.mp found
      exact absurd here new.instances
  · intro id f found other
    exact absurd (new.single found) other
  · intro id c superclass found
    exact absurd found (new.fresh.classes id c)

theorem New.hosted {m : Machine} (new : m.New) (faults : WriteFaults) (clock : Clock) :
    New { m with outputFault := faults, clock := clock } :=
  ⟨⟨new.idle.top, new.idle.root⟩, ⟨new.fresh.functions, new.fresh.classes⟩, new.single, new.bindings, new.instances,
    new.natives⟩

theorem initialNew (milliseconds : Nat) : (initial milliseconds).New := by
  have frame : ∀ {id f}, (initial milliseconds).heap.frames.frame? id = some f →
      id = ⟨0⟩ ∧ f = ⟨none, Table.empty.insert "clock" (.function ⟨0⟩)⟩ := by
    rintro ⟨_ | index⟩ f found
    · cases found
      exact ⟨rfl, rfl⟩
    · cases found
  have native : ∀ {id c}, (initial milliseconds).heap.callable? id = some c → c = .native .clock := by
    rintro ⟨_ | index⟩ c found
    · cases found
      rfl
    · cases found
  refine ⟨initialIdle milliseconds, initialFresh milliseconds, fun found => (frame found).1, ?_, nofun, ?_⟩
  · intro f name value found bound node object
    obtain ⟨_, rfl⟩ := frame found
    rw [Table.findInsert] at bound
    split at bound
    · cases bound
      cases object
      exact ⟨_, functionObject rfl⟩
    · cases bound
  · intro id n found
    cases native found
    exact Native.clockTame

end Machine

/- On a machine that starts out new, whatever its host does with it: at every point of its history all links lead to the
global frame or to a class without a superclass. What the host hands over has to be there, and its functions have to be
tame. -/
theorem historyRooted {limit : Nat} {m₀ : Machine} (new : m₀.New) {turns : List Turn}
    (fair : (Discipline.orderly m₀.globals).FairAll limit turns m₀) :
    (∀ m ∈ m₀.history limit turns, m.Rooted ∧ m.globals = m₀.globals) ∧
    ∀ m, turns.foldlM (Machine.take limit) m₀ = some m → m ∈ m₀.history limit turns := by
  have admits := Discipline.orderlyAdmits m₀.globals
  have ready : (Discipline.orderly m₀.globals).Ready m₀ := ⟨new.ordered, new.ordered.present⟩
  have here : (Discipline.orderly m₀.globals).Here m₀ := by
    rw [Discipline.Here, new.idle.top]
    exact ready.globals
  refine ⟨?_, ?_⟩
  · intro m member
    obtain ⟨retains, kept, here⟩ := (Discipline.historyKept admits limit ready here fair).each m member
    rw [← retains.globals] at kept here
    exact ⟨kept.rooted here, retains.globals⟩
  · intro m ends
    obtain ⟨earlier, through⟩ := historyAppend [] ends
    rw [List.append_nil] at through
    rw [through]
    exact List.mem_append_right earlier (List.mem_singleton.mpr rfl)

theorem Native.secondTame : Native.second.Tame := by
  intro m arguments value given ran
  cases ran
  rcases arguments with _ | ⟨first, _ | ⟨second, rest⟩⟩
  · exact nofun
  · exact nofun
  · exact given second (by simp)

/- A name that is given to a class and then to a subclass of that class; a counter that closes over its count; and a
block that takes a method of an instance and one of a class, and then has something to print. -/
def familyProgram : Program :=
  [.classDecl ⟨⟨"A", 1⟩, none, [⟨some ⟨"get", 1⟩, [], [.returnStmt ⟨"return", 1⟩ (some (.this ⟨"this", 1⟩ none))], 1⟩],
      [⟨some ⟨"make", 1⟩, [], [.returnStmt ⟨"return", 1⟩ (some (.call (.var ⟨"A", 1⟩ none) [] 1))], 1⟩]⟩,
    .varDecl ⟨"B", 2⟩ (some (.var ⟨"A", 2⟩ none)), .classDecl ⟨⟨"A", 2⟩, some (.var ⟨"B", 2⟩ none), [], []⟩,
    .funDecl ⟨some ⟨"counter", 3⟩, [], [.varDecl ⟨"n", 3⟩ none,
      .returnStmt ⟨"return", 3⟩ (some (.lambda ⟨none, [], [.expression (.assign ⟨"n", 3⟩ (.literal .nil 3) none)], 3⟩))], 3⟩,
    .varDecl ⟨"c", 4⟩ (some (.call (.var ⟨"counter", 4⟩ none) [] 4)),
    .block [.varDecl ⟨"a", 5⟩ (some (.call (.get (.var ⟨"A", 5⟩ none) ⟨"make", 5⟩) [] 5)),
      .varDecl ⟨"g", 5⟩ (some (.get (.var ⟨"a", 5⟩ none) ⟨"get", 5⟩)),
      .print (.call (.var ⟨"g", 5⟩ none) [] 5)]]

def familyStart : Machine :=
  { Machine.initial 0 with outputFault := .always (some "no space"), clock := .startingAt 5 }

/- The function that is called by the host is the one it has just installed. -/
def familyTurns : List Turn :=
  [.ask (.interpret familyProgram), .install .second,
    .ask (.call (.function ⟨5⟩) [.function ⟨2⟩, .classObject ⟨1⟩] 6), .ask (.evaluate (.call (.var ⟨"c", 7⟩ none) [] 7))]

theorem familyMade : (familyStart.take 20 (.ask (.interpret familyProgram))).map
    (fun m => (m.heap.callables.size, m.heap.classes.size)) = some (5, 2) := by decide +kernel

theorem familyFair : (Discipline.orderly familyStart.globals).FairAll 20 familyTurns familyStart := by
  refine ⟨trivial, fun m first => ⟨Native.secondTame, fun m' second => ⟨?_, fun _ _ => ⟨trivial, fun _ _ => trivial⟩⟩⟩⟩
  have made := familyMade
  rw [first, Option.map_some] at made
  obtain ⟨functions, classes⟩ := Prod.mk.inj (Option.some.inj made)
  cases second
  have function : ∀ index < 6, (Value.function ⟨index⟩).Known (m.install .second).heap.Holds := by
    intro index below node object
    cases object
    have bound : index < (m.heap.callables.push (.native .second)).size := by rw [Array.size_push, functions]; exact below
    exact ⟨_, functionObject (Array.getElem?_eq_getElem bound)⟩
  have cls : (Value.classObject ⟨1⟩).Known (m.install .second).heap.Holds := by
    intro node object
    cases object
    have bound : 1 < m.heap.classes.size := by rw [classes]; decide
    exact ⟨_, classObject (h := (m.install .second).heap) (Array.getElem?_eq_getElem bound)⟩
  refine ⟨function 5 (by decide), ?_⟩
  intro a given
  rcases List.mem_pair.mp given with rfl | rfl
  · exact function 2 (by decide)
  · exact cls

theorem familyEnds : (familyTurns.foldlM (Machine.take 20) familyStart).map
    (fun m => (m.heap.frames.cells.size, m.heap.classes.size)) = some (13, 2) := by decide +kernel

theorem familyRooted : familyStart.New ∧ (familyStart.interpret 20 familyProgram).map (·.1.diagnostics) =
      some [.runtime ⟨5, .host "Failed to write output: no space"⟩] ∧
    ∃ m, familyTurns.foldlM (Machine.take 20) familyStart = some m ∧ m.heap.frames.cells.size = 13 ∧ m.Rooted ∧
    ∀ x ∈ familyStart.history 20 familyTurns, x.Rooted := by
  have new : familyStart.New := (Machine.initialNew 0).hosted _ _
  obtain ⟨m, ends, view⟩ := Option.map_eq_some_iff.mp familyEnds
  obtain ⟨rooted, through⟩ := historyRooted new familyFair
  exact ⟨new, by decide +kernel, m, ends, congrArg Prod.fst view, (rooted m (through m ends)).1,
    fun x member => (rooted x member).1⟩

end Treewalk
