import Treewalk.Proofs.Discipline.Rules

/-! Calls and what is out of their reach. A call starts from its callee, its arguments and the globals. What cannot be
reached from there stays as it is, and no object that the call could reach, makes or returns comes to refer to it. -/
namespace Treewalk

/- An object that the host returns can be reached from one of the arguments it was given. -/
def Native.Honest (n : Native) : Prop :=
  ∀ (m : Machine) (arguments : List Value) (value : Value) (node : Node),
    n.run m.hostView arguments = .ok value → value.node? = some node →
      ∃ argument ∈ arguments, ∃ root, argument.node? = some root ∧ m.heap.Reaches root node

inductive CallRoot (m : Machine) (callee : Callee) (arguments : List Value) : Node → Prop where
  | globals : CallRoot m callee arguments (.frame m.globals)
  | argument {value node} (given : value ∈ arguments) (object : value.node? = some node) :
      CallRoot m callee arguments node
  | closure {f : Function} (function : callee = .callable (.function f)) :
      CallRoot m callee arguments (.frame f.closure)
  | constructed {id : ClassId} (cls : callee = .construct id) : CallRoot m callee arguments (.classObject id)

def WithinReach (m : Machine) (callee : Callee) (arguments : List Value) (node : Node) : Prop :=
  ∃ root, CallRoot m callee arguments root ∧ m.heap.Reaches root node

/- Nothing known refers to what is not known, and what is not known is as it was before. -/
structure Sealed (before : Heap) (known : Node → Prop) (h : Heap) : Prop where
  closed : ∀ {node other}, known node → h.Refers node other → known other
  kept : ∀ {node object}, ¬ known node → before.object? node = some object → h.object? node = some object
  holds : ∀ {node}, before.Holds node → h.Holds node
  honest : ∀ {id n}, h.callable? id = some (.native n) → n.Honest

namespace Sealed
variable {before h h' : Heap} {known : Node → Prop}

theorem reaches (whole : Sealed before known h) {node other : Node} (here : known node)
    (reached : h.Reaches node other) : known other := by
  induction reached with
  | refl => exact here
  | tail _ refers ih => exact whole.closed ih refers

theorem change (whole : Sealed before known h) (change : h.Change known h') : Sealed before known h' := by
  constructor
  · intro node other here refers
    rcases change.refers refers with seen | old
    · exact seen
    · exact whole.closed here old
  · intro node object unknown found
    have same := whole.kept unknown found
    rw [change.unknown ⟨object, same⟩ unknown, same]
  · exact fun held => change.holds (whole.holds held)
  · exact fun found => whole.honest (change.native found)

/- Known are also all places that were empty before, so what is made there is in sight. -/
def discipline (before : Heap) (known : Node → Prop) (new : ∀ node, ¬ before.Holds node → known node) :
    Discipline where
  Allows := Sealed before known
  Sees _ := known
  Trusts := Native.Honest
  follow whole here refers := whole.closed here refers
  change whole changed := whole.change changed
  keeps _ _ here := here
  fresh whole _ absent _ := new _ fun held => absent (whole.holds held)
  installed whole found := whole.honest found
  native whole honest given ran node object := by
    obtain ⟨argument, member, root, isRoot, reached⟩ := honest _ _ _ node ran object
    exact whole.reaches (given argument member root isRoot) reached

end Sealed

section
variable {m : Machine} {callee : Callee} {arguments : List Value}

/- All that a call can get hold of: what it can reach, and what does not exist yet. -/
def InSight (m : Machine) (callee : Callee) (arguments : List Value) (node : Node) : Prop :=
  WithinReach m callee arguments node ∨ ¬ m.heap.Holds node

theorem WithinReach.root {node : Node} (root : CallRoot m callee arguments node) :
    WithinReach m callee arguments node :=
  ⟨node, root, .refl⟩

theorem WithinReach.refers {node other : Node} (here : WithinReach m callee arguments node)
    (refers : m.heap.Refers node other) : WithinReach m callee arguments other := by
  obtain ⟨root, isRoot, reached⟩ := here
  exact ⟨root, isRoot, reached.tail refers⟩

theorem sealedBefore (honest : ∀ id n, m.heap.callable? id = some (.native n) → n.Honest) :
    Sealed m.heap (InSight m callee arguments) m.heap := by
  constructor
  · intro node other here refers
    rcases here with reached | absent
    · exact .inl (reached.refers refers)
    · obtain ⟨object, found, _⟩ := refers
      exact absurd ⟨object, found⟩ absent
  · exact fun _ found => found
  · exact fun held => held
  · exact fun found => honest _ _ found

end

/- However a call ends: an object that it could not reach is what it was, and is reached neither from the result nor
from what the call could reach. The functions of the host are the only ones that have to be trusted. -/
theorem callsEncapsulated {limit line : Nat} {m m' : Machine} {callee : Callee} {arguments : List Value}
    {outcome : Except RuntimeError Value}
    (honest : ∀ n, callee = .callable (.native n) ∨ (∃ id, m.heap.callable? id = some (.native n)) → n.Honest)
    (ends : ((evaluator limit).call callee arguments line).finish m = some (outcome, m'))
    {node : Node} {object : Object} (existed : m.heap.object? node = some object)
    (outside : ¬ WithinReach m callee arguments node) :
    m'.heap.object? node = some object ∧
    (∀ value root, outcome = .ok value → value.node? = some root → ¬ m'.heap.Reaches root node) ∧
    ∀ root, WithinReach m callee arguments root → ¬ m'.heap.Reaches root node := by
  let d := Sealed.discipline m.heap (InSight m callee arguments) fun _ absent => .inr absent
  have ready : d.Ready m :=
    ⟨sealedBefore fun id n found => honest n (.inr ⟨id, found⟩), .inl (.root .globals)⟩
  have seen : d.SeesCallee m.heap callee := by
    rcases callee with (f | n) | cls
    · exact .inl (.root (.closure rfl))
    · exact honest n (.inl rfl)
    · exact .inl (.root (.constructed rfl))
  have given : ∀ a ∈ arguments, d.SeesValue m.heap a :=
    fun a member node object => .inl (.root (.argument member object))
  have run : d.invariant.Survives ⟨m, .none⟩ ((watcher limit).call none callee arguments line) _ _ :=
    (d.upheld.upTo limit).call line ready seen given
  obtain ⟨s', rfl, leads, returned⟩ := run.finish ends
  have whole : Sealed m.heap (InSight m callee arguments) s'.machine.heap := leads.later.ready.allowed
  have hidden : ¬ InSight m callee arguments node := by
    rintro (reached | absent)
    · exact outside reached
    · exact absent ⟨object, existed⟩
  refine ⟨whole.kept hidden existed, ?_, ?_⟩
  · intro value root same isRoot reached
    exact hidden (whole.reaches (returned value same root isRoot) reached)
  · intro root within reached
    exact hidden (whole.reaches (.inl within) reached)

/- The body of `fun fill() { shared = Box(); }`. -/
def fillDecl : FunctionDecl :=
  ⟨some ⟨"fill", 1⟩, [], [.expression (.assign ⟨"shared", 1⟩ (.call (.var ⟨"Box", 1⟩ none) [] 1) none)], 1⟩

def shelfProgram : Program :=
  [.classDecl ⟨⟨"Box", 1⟩, none, [], []⟩, .funDecl fillDecl, .varDecl ⟨"shared", 1⟩ none,
    .block [.varDecl ⟨"hidden", 1⟩ (some (.call (.var ⟨"Box", 1⟩ none) [] 1))]]

def fillFunction : Function := ⟨fillDecl, ⟨0⟩, false⟩

def shelfGlobals : Table Value :=
  ⟨[("clock", .function ⟨0⟩), ("Box", .classObject ⟨0⟩), ("fill", .function ⟨1⟩), ("shared", .nil)]⟩

/- The block has left a frame and an instance behind that nothing leads to any more. -/
def shelf : Machine := { Machine.initial 0 with
  heap :=
    { frames := ⟨#[⟨none, shelfGlobals⟩, ⟨some ⟨0⟩, .empty⟩, ⟨some ⟨0⟩, ⟨[("hidden", .instanceObject ⟨0⟩)]⟩⟩]⟩
      callables := #[.native .clock, .function fillFunction]
      classes := #[⟨"Box", none, .empty, .empty⟩]
      instances := #[⟨⟨0⟩, .empty⟩] } }

theorem shelfLeft : (Machine.initial 0).interpret 9 shelfProgram = some (⟨.ok, []⟩, shelf) := by rfl

theorem Table.findMember {t : Table α} {name : String} {value : α} (found : t.find? name = some value) :
    (name, value) ∈ t.entries := by
  obtain ⟨entries⟩ := t
  induction entries with
  | nil => cases found
  | cons entry rest ih =>
    simp only [find?, findEntry] at found
    split at found
    · rename_i same
      cases found
      rw [same]
      exact List.mem_cons_self
    · exact List.mem_cons_of_mem _ (ih found)

def onShelf : List Node := [.frame ⟨0⟩, .function ⟨0⟩, .function ⟨1⟩, .classObject ⟨0⟩]

theorem shelfClosed {node other : Node} (here : node ∈ onShelf) (refers : shelf.heap.Refers node other) :
    other ∈ onShelf := by
  have globals : ∀ entry ∈ shelfGlobals.entries, ∀ node ∈ entry.2.node?, node ∈ onShelf := by decide
  obtain ⟨object, found, named⟩ := refers
  simp only [onShelf, List.mem_cons, List.not_mem_nil, or_false] at here
  rcases here with rfl | rfl | rfl | rfl <;> cases found
  · cases named with
    | parent link => cases link
    | binding bound isNode => exact globals _ (Table.findMember bound) _ isNode
  · cases named
  · cases named
    decide
  · cases named with
    | superclass link => cases link
    | method bound => cases bound
    | classMethod bound => cases bound

theorem shelfReach {node : Node} (reached : WithinReach shelf (.callable (.function fillFunction)) [] node) :
    node ∈ onShelf := by
  obtain ⟨root, isRoot, path⟩ := reached
  induction path with
  | refl =>
    cases isRoot with
    | globals => decide
    | argument given => cases given
    | closure same =>
      cases same
      decide
    | constructed same => cases same
  | tail _ refers ih => exact shelfClosed ih refers

theorem Native.clockHonest : Native.clock.Honest := by
  intro m arguments value node ran object
  cases ran
  cases object

theorem shelfHonest (n : Native) (host : Callee.callable (.function fillFunction) = .callable (.native n) ∨
    ∃ id, shelf.heap.callable? id = some (.native n)) : n.Honest := by
  rcases host with same | ⟨⟨index⟩, found⟩
  · cases same
  · rcases index with _ | _ | index
    · cases found
      exact Native.clockHonest
    · cases found
    · cases found

theorem shelfKept : (Machine.initial 0).interpret 9 shelfProgram = some (⟨.ok, []⟩, shelf) ∧
    ∃ m', ((evaluator 9).call (.callable (.function fillFunction)) [] 1).finish shelf =
      some (.ok .nil, m') ∧
    m'.heap.frames.get? ⟨0⟩ "shared" = some (.instanceObject ⟨1⟩) ∧
    ¬ WithinReach shelf (.callable (.function fillFunction)) [] (.frame ⟨2⟩) ∧
    m'.heap.object? (.frame ⟨2⟩) = some (.frame ⟨some ⟨0⟩, ⟨[("hidden", .instanceObject ⟨0⟩)]⟩⟩) ∧
    m'.heap.object? (.instanceObject ⟨0⟩) = some (.instanceObject ⟨⟨0⟩, .empty⟩) ∧
    ¬ m'.heap.Reaches (.frame ⟨0⟩) (.instanceObject ⟨0⟩) := by
  have frame : ¬ WithinReach shelf (.callable (.function fillFunction)) [] (.frame ⟨2⟩) :=
    fun reached => absurd (shelfReach reached) (by decide)
  have hidden : ¬ WithinReach shelf (.callable (.function fillFunction)) [] (.instanceObject ⟨0⟩) :=
    fun reached => absurd (shelfReach reached) (by decide)
  have ends : ((evaluator 9).call (.callable (.function fillFunction)) [] 1).finish shelf = some (.ok .nil, _) := rfl
  have keptFrame := callsEncapsulated shelfHonest ends rfl frame
  have keptInstance := callsEncapsulated shelfHonest ends rfl hidden
  exact ⟨shelfLeft, _, ends, rfl, frame, keptFrame.1, keptInstance.1, keptInstance.2.2 _ (.root .globals)⟩

end Treewalk
