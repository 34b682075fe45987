import Treewalk.Proofs.Discipline.Rules

/-! The history of a machine. A host asks things of a machine and gives it functions, one turn after another. The history
has the machine before each turn, at every event on the way, and at the end, in the order of time. What the machine has
at one point of its history it retains at all later ones. -/
namespace Treewalk

inductive Turn where
  | ask (request : Request)
  | install (n : Native)

def Machine.take (limit : Nat) (m : Machine) : Turn → Option Machine
  | .ask request => m.serve limit request
  | .install n => some (m.install n)

def Turn.watch (w : Watcher) : Turn → Watch Unit
  | .ask request => request.watch w
  | .install n => Watch.lift fun m => .ok () (m.install n)

def Machine.history (limit : Nat) : List Turn → Machine → List Machine
  | [], m => [m]
  | turn :: rest, m =>
    match Watch.attempt (turn.watch (watcher limit)) ⟨m, .none⟩ with
    | .ok _ s => m :: (s.shadow.events.reverse.map Event.machine ++ Machine.history limit rest s.machine)
    | .error _ s => m :: (s.shadow.events.reverse.map Event.machine ++ [s.machine])

theorem takeEnds (limit : Nat) (m : Machine) (turn : Turn) :
    ended (Watch.attempt (turn.watch (watcher limit)) ⟨m, .none⟩) = m.take limit turn := by
  cases turn with
  | ask request => exact (attemptEnds ((watchesUpTo limit).request request) _).trans (serveRuns limit m request).symm
  | install n => rfl

theorem historyOn {limit : Nat} {turn : Turn} {m : Machine} {s : Observed}
    (run : Watch.attempt (turn.watch (watcher limit)) ⟨m, .none⟩ = .ok () s) (rest : List Turn) :
    m.history limit (turn :: rest) = m :: (s.shadow.events.reverse.map Event.machine ++ s.machine.history limit rest) := by
  rw [Machine.history, run]

theorem historyCut {limit : Nat} {turn : Turn} {m : Machine} {s : Observed} {halt : Halt}
    (run : Watch.attempt (turn.watch (watcher limit)) ⟨m, .none⟩ = .error halt s) (rest : List Turn) :
    m.history limit (turn :: rest) = m :: (s.shadow.events.reverse.map Event.machine ++ [s.machine]) := by
  rw [Machine.history, run]

theorem historyAppend {limit : Nat} {before : List Turn} (after : List Turn) {m m' : Machine}
    (ends : before.foldlM (Machine.take limit) m = some m') :
    ∃ earlier, m.history limit (before ++ after) = earlier ++ m'.history limit after := by
  induction before generalizing m with
  | nil =>
    cases ends
    exact ⟨[], rfl⟩
  | cons turn rest ih =>
    rw [List.foldlM_cons] at ends
    obtain ⟨next, taken, others⟩ := Option.bind_eq_some_iff.mp ends
    obtain ⟨earlier, continued⟩ := ih others
    have same := (takeEnds limit m turn).trans taken
    cases run : Watch.attempt (turn.watch (watcher limit)) ⟨m, .none⟩ with
    | ok a s =>
      rw [run] at same
      cases Option.some.inj same
      refine ⟨m :: (s.shadow.events.reverse.map Event.machine ++ earlier), ?_⟩
      rw [List.cons_append, historyOn run, continued, List.cons_append, List.append_assoc]
    | error halt s =>
      rw [run] at same
      cases same

namespace Discipline
variable {d : Discipline} {m : Machine}

def Fair (d : Discipline) (m : Machine) : Turn → Prop
  | .ask (.call callee arguments _) => d.SeesValue m.heap callee ∧ ∀ a ∈ arguments, d.SeesValue m.heap a
  | .ask (.define _ value) => d.SeesValue m.heap value
  | .ask _ => True
  | .install n => d.Trusts n

def FairAll (d : Discipline) (limit : Nat) : List Turn → Machine → Prop
  | [], _ => True
  | turn :: rest, m => d.Fair m turn ∧ ∀ m', m.take limit turn = some m' → d.FairAll limit rest m'

/- No run adds a function of the host, so that a discipline allows for it has to be said. -/
def Admits (d : Discipline) : Prop := ∀ m n, d.Ready m → d.Trusts n → d.Later m (m.install n)

theorem requestLeads (limit : Nat) {request : Request} (fair : d.Fair m (.ask request)) (ready : d.Ready m)
    (here : d.Here m) : d.Leads ⟨m, .none⟩ (observedAfter (request.watch (watcher limit) ⟨m, .none⟩)) := by
  have holds : d.invariant.Holds ⟨m, .none⟩ := ready
  refine (d.upheld.request (d.upheld.upTo limit) holds ?_).2.1
  cases request with
  | interpret program => exact ⟨_, d.sequence none, here⟩
  | execute program => exact ⟨_, d.sequence none, here⟩
  | evaluate e => exact here
  | call callee arguments line => exact ⟨fun _ found => seesCalled ready.allowed fair.1 found, fair.2⟩
  | define name value => exact .silent (ready.define name ready.globals fair) rfl

theorem turnLeads (admits : d.Admits) (limit : Nat) {turn : Turn} (fair : d.Fair m turn) (ready : d.Ready m)
    (here : d.Here m) : d.Leads ⟨m, .none⟩ (observedAfter (turn.watch (watcher limit) ⟨m, .none⟩)) := by
  cases turn with
  | ask request => exact requestLeads limit fair ready here
  | install n => exact .silent (admits m n ready fair) rfl

structure Annals (d : Discipline) (m : Machine) (machines : List Machine) : Prop where
  order : machines.Pairwise Machine.Retains
  each : ∀ x ∈ machines, m.Retains x ∧ d.Ready x ∧ d.Here x

theorem Annals.single (ready : d.Ready m) (here : d.Here m) : d.Annals m [m] :=
  ⟨List.pairwise_singleton _ _, List.forall_mem_singleton.mpr ⟨.refl m, ready, here⟩⟩

theorem Annals.after {s : Observed} {rest : List Machine} (ready : d.Ready m) (here : d.Here m)
    (leads : d.Leads ⟨m, .none⟩ s) (annals : d.Annals s.machine rest) :
    d.Annals m (m :: (s.shadow.events.reverse.map Event.machine ++ rest)) := by
  obtain ⟨events, split, chronicle⟩ := leads.record
  have events' : s.shadow.events = events := split.trans (List.append_nil events)
  rw [events']
  have recorded : ∀ x ∈ events.reverse.map Event.machine, ∃ e ∈ events, e.machine = x := by
    intro x member
    obtain ⟨e, inEvents, same⟩ := List.mem_map.mp member
    exact ⟨e, List.mem_reverse.mp inEvents, same⟩
  have each : ∀ x ∈ events.reverse.map Event.machine ++ rest, m.Retains x ∧ d.Ready x ∧ d.Here x := by
    intro x member
    obtain inEvents | inRest := List.mem_append.mp member
    · obtain ⟨e, here, rfl⟩ := recorded x inEvents
      exact ⟨chronicle.since e here, chronicle.kept e here⟩
    · obtain ⟨retains, rest⟩ := annals.each x inRest
      exact ⟨leads.later.retains.trans retains, rest⟩
  refine ⟨List.pairwise_cons.mpr ⟨fun x member => (each x member).1, List.pairwise_append.mpr ⟨?_, annals.order, ?_⟩⟩, ?_⟩
  · rw [List.pairwise_map, List.pairwise_reverse]
    exact chronicle.order
  · intro x inEvents y inRest
    obtain ⟨e, here, rfl⟩ := recorded x inEvents
    exact (chronicle.onwards e here).trans (annals.each y inRest).1
  · exact List.forall_mem_cons.mpr ⟨⟨.refl m, ready, here⟩, each⟩

/- By induction on the turns: each starts on the machine that the one before it has left. -/
theorem historyKept (admits : d.Admits) (limit : Nat) {turns : List Turn} (ready : d.Ready m) (here : d.Here m)
    (fair : d.FairAll limit turns m) : d.Annals m (m.history limit turns) := by
  induction turns generalizing m with
  | nil => exact .single ready here
  | cons turn rest ih =>
    obtain ⟨now, next⟩ := fair
    have leads := turnLeads admits limit now ready here
    have taken := takeEnds limit m turn
    rw [← Watch.attemptAfter] at leads
    cases run : Watch.attempt (turn.watch (watcher limit)) ⟨m, .none⟩ with
    | ok a s =>
      rw [run] at leads taken
      rw [historyOn run]
      exact .after ready here leads (ih leads.later.ready (leads.later.here here) (next _ taken.symm))
    | error halt s =>
      rw [run] at leads
      rw [historyCut run]
      exact .after ready here leads (.single leads.later.ready (leads.later.here here))

def free : Discipline where
  Allows _ := True
  Sees _ _ := True
  Trusts _ := True
  follow _ _ _ := trivial
  change _ _ := trivial
  keeps _ _ _ := trivial
  fresh _ _ _ _ := trivial
  installed _ _ := trivial
  native _ _ _ _ _ _ := trivial

theorem installRetains (m : Machine) (n : Native) : m.Retains (m.install n) := by
  have added : m.heap.Retains (m.addCallable (.native n)).heap := .addCallable m.heap (.native n)
  exact ⟨added.trans (.put ((m.addCallable (.native n)).heap.bindingPut · _ _ _)), List.prefix_rfl, rfl⟩

theorem freeAdmits : free.Admits :=
  fun m n _ _ => ⟨⟨rfl, rfl, rfl⟩, installRetains m n, ⟨trivial, trivial⟩, fun _ _ => trivial⟩

theorem freeFair (limit : Nat) (turns : List Turn) (m : Machine) : free.FairAll limit turns m := by
  induction turns generalizing m with
  | nil => trivial
  | cons turn rest ih =>
    refine ⟨?_, fun m' _ => ih m'⟩
    rcases turn with (_ | _ | _ | _ | _) | _
    · trivial
    · trivial
    · trivial
    · exact ⟨fun _ _ => trivial, fun _ _ _ _ => trivial⟩
    · exact fun _ _ => trivial
    · trivial

end Discipline

/- Whatever a host does with a machine, and however its requests end: of any two points of the history the later one
retains what the earlier one has. The history goes through the machine after each turn, as the turns themselves give
it. -/
theorem machineOnlyGrows (limit : Nat) (turns : List Turn) (m : Machine) :
    (m.history limit turns).Pairwise Machine.Retains ∧
    ∀ before after, turns = before ++ after → ∀ m', before.foldlM (Machine.take limit) m = some m' →
      ∃ earlier, m.history limit turns = earlier ++ m'.history limit after := by
  refine ⟨?_, ?_⟩
  · have ready : Discipline.free.Ready m := ⟨trivial, trivial⟩
    exact (Discipline.historyKept Discipline.freeAdmits limit ready trivial (Discipline.freeFair limit turns m)).order
  · rintro before after rfl m' ends
    exact historyAppend after ends

def growingProgram : Program :=
  [.classDecl ⟨⟨"A", 1⟩, none, [], []⟩, .varDecl ⟨"a", 1⟩ (some (.call (.var ⟨"A", 1⟩ none) [] 1)),
    .expression (.set (.var ⟨"a", 2⟩ none) ⟨"x", 2⟩ (.literal .nil 2)),
    .block [.varDecl ⟨"n", 3⟩ none, .print (.var ⟨"n", 3⟩ none), .expression (.unary .negate (.var ⟨"n", 4⟩ none) 4)]]

def growingTurns : List Turn :=
  [.ask (.interpret growingProgram), .install .second, .ask (.evaluate (.get (.var ⟨"a", 5⟩ none) ⟨"x", 5⟩)),
    .ask (.define "x" (.bool true))]

theorem growingTurnsEnd : (growingTurns.foldlM (Machine.take 9) (Machine.initial 0)).map
    (fun m => (m.output, m.heap.frames.cells.size, m.heap.instances.size)) = some ("nil\n", 3, 1) := by decide +kernel

theorem growingMachine : ∃ m', growingTurns.foldlM (Machine.take 9) (Machine.initial 0) = some m' ∧
    m'.output = "nil\n" ∧ (∃ earlier, (Machine.initial 0).history 9 growingTurns = earlier ++ [m']) ∧
    ((Machine.initial 0).history 9 growingTurns).length = 27 ∧
    ((Machine.initial 0).history 9 growingTurns).Pairwise Machine.Retains := by
  obtain ⟨m', ends, view⟩ := Option.map_eq_some_iff.mp growingTurnsEnd
  obtain ⟨order, through⟩ := machineOnlyGrows 9 growingTurns (Machine.initial 0)
  exact ⟨m', ends, congrArg Prod.fst view, through growingTurns [] rfl m' ends, by decide +kernel, order⟩

end Treewalk
