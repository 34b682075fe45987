import Treewalk.Host
import Treewalk.Proofs.Mirror.Rules

/-! Sessions. At top level no scope is open and the current frame is that of the globals, however the statement or
the program before has ended; so what holds of one rule holds of all that is ever run. -/
namespace Treewalk

open Walk

/- Between two programs: the current frame is that of the globals, which is in no other. -/
structure Machine.Idle (m : Machine) : Prop where
  top : m.environment = m.globals
  root : ∃ frame, m.heap.frames.frame? m.globals = some frame ∧ frame.parent = none

structure Machine.Fresh (m : Machine) : Prop where
  functions : ∀ id f, m.heap.callable? id ≠ some (.function f)
  classes : ∀ id c, m.heap.class? id ≠ some c

theorem Machine.initialIdle (milliseconds : Nat) : (Machine.initial milliseconds).Idle :=
  ⟨rfl, _, rfl, rfl⟩

theorem Machine.initialFresh (milliseconds : Nat) : (Machine.initial milliseconds).Fresh := by
  constructor
  · intro id f found
    have host : (Machine.initial milliseconds).heap.callables = #[.native .clock] := rfl
    rw [Heap.callable?, host, Array.getElem?_eq_some_iff] at found
    obtain ⟨inside, same⟩ := found
    have first : id.index = 0 := Nat.lt_one_iff.mp inside
    simp [first] at same
  · intro id c found
    have classless : (Machine.initial milliseconds).heap.classes = #[] := rfl
    rw [Heap.class?, classless] at found
    simp at found

namespace Setting
variable {g : Setting} {s : Observed}

def AtTop (g : Setting) (way : Address) (s : Observed) (index : Nat) (program : Program) : Prop :=
  s.machine.environment = s.machine.globals ∧ ∃ (place : Place) (source : List Stmt),
    place.context.scopes = [] ∧ place.sites = [] ∧ program = (Stmt.resolveList source).result place.context ∧
    ∀ i place' part, (place.thread (source.map .stmt))[i]? = some (place', part) →
      Located g.programs (.item (index + i) :: way) place' part

theorem Later.top {s' : Observed} (later : Later s s') (top : s.machine.environment = s.machine.globals) :
    s'.machine.environment = s'.machine.globals := by
  rw [later.environment, later.grows.globals, top]

theorem sequence (g : Setting) (way : Address) : g.invariant.Sequence (some way) (g.AtTop way) := by
  constructor
  · rintro s index st rest ⟨top, place, source, scopes, sites, same, located⟩
    cases source with
    | nil => cases same
    | cons first others =>
      obtain ⟨rfl, _⟩ := List.cons.inj same
      have chain : FrameChain s place.context.scopes place.sites s.machine.environment := by
        rw [scopes, sites, top]
        exact .globals
      exact ⟨place, .stmt first, located 0 place (.stmt first) rfl, rfl, _, chain, .inl rfl⟩
  · rintro s s' index st rest ⟨top, place, source, scopes, sites, same, located⟩ moves
    cases source with
    | nil => cases same
    | cons first others =>
      obtain ⟨_, rfl⟩ := List.cons.inj same
      have moved := (Phrase.resolveMoves (.stmt first) place.context).scopes
      rw [scopes] at moved
      refine ⟨moves.2.top top, place.after (Phrase.stmt first).resolve, others, moved, sites, rfl, ?_⟩
      intro i place' part found
      have next := located (i + 1) place' part found
      rwa [Nat.add_comm i 1, ← Nat.add_assoc] at next

theorem programMoves {program : Program} {index : Nat} (limit : Nat) (agrees : g.Agrees s)
    (top : s.machine.environment = s.machine.globals) (here : g.programs[index]? = some program) :
    g.invariant.Moves s
      (observedAfter ((watcher limit).execProgram (some [.program index]) 0 program.resolve.1 s)) := by
  have located : Located g.programs [.program index] .outermost (.program program) := .program here
  refine (g.mirrored.execProgram (g.mirrored.upTo limit) (g.sequence [.program index]) agrees ?_).2.1
  refine ⟨top, .outermost, program, rfl, rfl, rfl, ?_⟩
  intro i place' part found
  rw [Nat.zero_add]
  exact .part located found

def start (programs : List Program) (m : Machine) (proper : ∀ p ∈ programs, Stmt.ProperAll p)
    (accepted : ∀ p ∈ programs, p.resolve.2 = []) : Setting :=
  ⟨programs, ¬ m.Fresh, proper, accepted⟩

theorem startAgrees {programs : List Program} {m : Machine} (idle : m.Idle)
    (proper : ∀ p ∈ programs, Stmt.ProperAll p) (accepted : ∀ p ∈ programs, p.resolve.2 = []) :
    (start programs m proper accepted).Agrees ⟨m, .none⟩ := by
  constructor
  · exact ⟨idle.root, rfl, nofun⟩
  · exact fun id f found fresh => fresh.functions id f found
  · intro id c found
    exact ⟨fun _ _ _ fresh => fresh.classes id c found, fun _ _ _ fresh => fresh.classes id c found⟩
  · exact fun e member => absurd member List.not_mem_nil

theorem sessionAgrees {programs : List Program} {m : Machine} (limit : Nat) (idle : m.Idle)
    (proper : ∀ p ∈ programs, Stmt.ProperAll p) (accepted : ∀ p ∈ programs, p.resolve.2 = []) :
    (start programs m proper accepted).Agrees (observedAfter (watchSession limit 0 programs ⟨m, .none⟩)) := by
  have agrees := startAgrees idle proper accepted
  refine ((mirrored _).session limit 0 agrees ?_).1
  intro i p s' found moves
  rw [Nat.zero_add]
  exact programMoves limit moves.1 (moves.2.top idle.top) found

theorem sessionRecorded {programs : List Program} {m : Machine} (limit : Nat) (idle : m.Idle)
    (proper : ∀ p ∈ programs, Stmt.ProperAll p) (accepted : ∀ p ∈ programs, p.resolve.2 = []) :
    ∀ e ∈ m.events limit programs, (start programs m proper accepted).Recorded e := by
  rw [Machine.eventsAfter]
  exact (sessionAgrees limit idle proper accepted).events

end Setting
end Treewalk
