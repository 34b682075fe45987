import Treewalk.Proofs.Invariant.Rules

/-! Programs and sessions under an invariant. All statements of a program are run, whatever those before them have come
to, and all programs of a session. For the invariant that asks for nothing what is left to say is that the shadow changes
nothing: a watched run is the run itself. -/
namespace Treewalk

theorem Watch.attemptAfter (w : Watch Unit) (s : Observed) : observedAfter (w.attempt s) = observedAfter (w s) := by
  unfold Watch.attempt
  rcases w s with _ | ⟨_ | _, _⟩ <;> rfl

theorem Machine.eventsAfter (limit : Nat) (programs : List Program) (m : Machine) :
    m.events limit programs = (observedAfter (watchSession limit 0 programs ⟨m, .none⟩)).shadow.events := by
  unfold Machine.events
  cases watchSession limit 0 programs ⟨m, .none⟩ <;> rfl

namespace Invariant
variable {I : Invariant}

structure Sequence (I : Invariant) (address : Option Address) (Rest : Observed → Nat → Program → Prop) : Prop where
  first : ∀ {s index st rest}, Rest s index (st :: rest) → I.Node s (within? address (.item index)) (.stmt st)
  rest : ∀ {s s' index st rest}, Rest s index (st :: rest) → I.Moves s s' → Rest s' (index + 1) rest

def Runs (I : Invariant) (s : Observed) (program : Program) : Prop := ∃ Rest, I.Sequence none Rest ∧ Rest s 0 program

namespace Inductive
variable (h : I.Inductive) {s : Observed}
include h

theorem execProgram {w : Watcher} {r : Evaluator} (u : I.Upheld w r) {address : Option Address}
    {Rest : Observed → Nat → Program → Prop} (sequence : I.Sequence address Rest) {index : Nat} {program : Program}
    (holds : I.Holds s) (here : Rest s index program) :
    I.Survives s (w.execProgram address index program) (r.execProgram program) (fun _ _ => True) := by
  induction program generalizing s index with
  | nil => exact h.pure holds trivial
  | cons first rest ih =>
    apply h.bind (u.exec holds (sequence.first here))
    intro _ s' _ moves _
    exact ih (h.holds moves) (sequence.rest here moves)

/- A program that fails leaves the invariant to the next one. -/
theorem session (limit index : Nat) {programs : List Program} (holds : I.Holds s)
    (each : ∀ i p s', programs[i]? = some p → I.Moves s s' →
      I.Moves s' (observedAfter ((watcher limit).execProgram (some [.program (index + i)]) 0 p.resolve.1 s'))) :
    I.Moves s (observedAfter (watchSession limit index programs s)) := by
  induction programs generalizing s index with
  | nil => exact h.refl holds
  | cons program rest ih =>
    have first := each 0 program s rfl (h.refl holds)
    rw [Nat.add_zero, ← Watch.attemptAfter] at first
    change I.Moves s (observedAfter (EStateM.bind (Watch.attempt _) _ s))
    unfold EStateM.bind
    cases run : Watch.attempt ((watcher limit).execProgram (some [.program index]) 0 program.resolve.1) s with
    | error halt s' =>
      rw [run] at first
      exact first
    | ok _ s' =>
      rw [run] at first
      refine h.trans first (ih (index + 1) (h.holds first) ?_)
      intro i p s'' found moves
      have next := each (i + 1) p s'' found (h.trans first moves)
      rwa [Nat.add_comm i 1, ← Nat.add_assoc] at next

end Inductive

end Invariant

def Request.watch (w : Watcher) : Request → Watch Unit
  | .interpret program => if program.resolve.2.isEmpty then w.execProgram none 0 program.resolve.1 else return ()
  | .execute program => w.execProgram none 0 program
  | .evaluate e => do
    let _ ← w.eval none e
  | .call callee arguments line => do
    match ← Watch.lift (Run.callee? callee) with
    | some target =>
      let _ ← w.call none target arguments line
    | none => return ()
  | .define name value => Watch.lift fun m => .ok () (m.defineGlobal name value)

namespace Invariant
variable {I : Invariant}

def Asks (I : Invariant) (s : Observed) : Request → Prop
  | .interpret program => I.Runs s program.resolve.1
  | .execute program => I.Runs s program
  | .evaluate e => I.Node s none (.expr e)
  | .call callee arguments _ =>
    (∀ target, s.machine.heap.callee? callee = some target → I.Calls s none target) ∧ ∀ a ∈ arguments, I.Sees s a
  | .define name value => I.Moves s { s with machine := s.machine.defineGlobal name value }

theorem Inductive.request (h : I.Inductive) {w : Watcher} {r : Evaluator} (u : I.Upheld w r) {s : Observed}
    {request : Request} (holds : I.Holds s) (asks : I.Asks s request) :
    I.Survives s (request.watch w) (request.run r) (fun _ _ => True) := by
  cases request with
  | interpret program =>
    obtain ⟨Rest, sequence, here⟩ := asks
    unfold Request.watch Request.run
    dsimp only
    split
    · exact h.execProgram u sequence holds here
    · exact h.pure holds trivial
  | execute program =>
    obtain ⟨Rest, sequence, here⟩ := asks
    exact h.execProgram u sequence holds here
  | evaluate e =>
    apply h.bind (u.eval holds asks)
    intro _ s' _ moves _
    exact h.pure (h.holds moves) trivial
  | call callee arguments line =>
    obtain ⟨known, given⟩ := asks
    refine h.step rfl rfl (h.refl holds) ?_
    cases found : s.machine.heap.callee? callee with
    | none => exact h.pure holds trivial
    | some target =>
      apply h.bind (u.call line holds (known target found) given)
      intro _ s' _ moves _
      exact h.pure (h.holds moves) trivial
  | define name value => exact .done rfl rfl asks trivial

end Invariant

namespace Invariant
variable {I : Invariant}

theorem Survives.finish {s : Observed} {w : Watch α} {r : Run α} {post : α → Observed → Prop} {m' : Machine}
    {outcome : Except RuntimeError α} (h : I.Survives s w r post) (ends : r.finish s.machine = some (outcome, m')) :
    ∃ s', s'.machine = m' ∧ I.Moves s s' ∧ ∀ a, outcome = .ok a → post a s' := by
  unfold Run.finish at ends
  obtain ⟨a, s', _, run, moves, known⟩ | ⟨halt, s', _, run, moves⟩ := h.ends
  · rw [run] at ends
    cases ends
    refine ⟨s', rfl, moves, ?_⟩
    rintro _ ⟨⟩
    exact known
  · rw [run] at ends
    cases halt with
    | error e =>
      cases ends
      exact ⟨s', rfl, moves, by simp⟩
    | exhausted => cases ends

theorem Survives.erases {w : Watch α} {r : Run α} {post : α → Observed → Prop} (h : ∀ s, I.Survives s w r post) :
    Erases w r :=
  fun s => (h s).1

def vacuous : Invariant :=
  ⟨fun _ => True, fun _ _ => True, fun _ _ _ => True, fun _ _ _ _ => True, fun _ _ => True, fun _ _ => True,
    fun _ _ _ => True, fun _ _ _ => True⟩

theorem vacuousInductive : vacuous.Inductive := by
  constructor <;> constructor <;> simp [vacuous]

end Invariant

structure Watches (w : Watcher) (r : Evaluator) : Prop where
  eval : ∀ address e, Erases (w.eval address e) (r.eval e)
  exec : ∀ address s, Erases (w.exec address s) (r.exec s)
  call : ∀ origin callee arguments line, Erases (w.call origin callee arguments line) (r.call callee arguments line)
  evalFrom : ∀ address index es, Erases (w.evalFrom address index es) (r.evalAll es)
  superclass : ∀ address (decl : ClassDecl), Erases (w.superclass address decl.superclass) (r.superclass decl.superclass)
  execProgram : ∀ address index program, Erases (w.execProgram address index program) (r.execProgram program)
  request : ∀ request : Request, Erases (request.watch w) (request.run r)

theorem watchesUpTo (n : Nat) : Watches (watcher n) (evaluator n) := by
  have h := Invariant.vacuousInductive
  have u := h.upTo n
  have any : ∀ address, Invariant.vacuous.Sequence address (fun _ _ _ => True) :=
    fun _ => ⟨fun _ => trivial, fun _ _ => trivial⟩
  refine ⟨?_, ?_, ?_, ?_, ?_, ?_, ?_⟩
  · exact fun _ _ => Invariant.Survives.erases fun _ => u.eval trivial trivial
  · exact fun _ _ => Invariant.Survives.erases fun _ => u.exec trivial trivial
  · exact fun _ _ _ line => Invariant.Survives.erases fun _ => u.call line trivial trivial fun _ _ => trivial
  · exact fun _ _ _ => Invariant.Survives.erases fun _ => h.evalFrom u trivial fun _ _ _ => trivial
  · exact fun _ _ => Invariant.Survives.erases fun _ => h.superclass u trivial trivial
  · exact fun address _ _ => Invariant.Survives.erases fun _ => h.execProgram u (any address) trivial trivial
  · refine fun request => Invariant.Survives.erases fun s => h.request u trivial ?_
    cases request with
    | interpret program => exact ⟨_, any none, trivial⟩
    | execute program => exact ⟨_, any none, trivial⟩
    | call callee arguments line => exact ⟨fun _ _ => trivial, fun _ _ => trivial⟩
    | _ => trivial

def ended : EStateM.Result Halt Observed α → Option Machine
  | .ok _ s => some s.machine
  | .error _ _ => none

theorem attemptEnds {w : Watch Unit} {r : Run Unit} (erases : Erases w r) (s : Observed) :
    ended (w.attempt s) = (r.finish s.machine).map Prod.snd := by
  have same := erases s
  unfold Watch.attempt Run.finish
  cases run : w s with
  | ok a s' =>
    rw [run] at same
    simp only [← same, erase]
    rfl
  | error halt s' =>
    rw [run] at same
    simp only [← same, erase]
    cases halt <;> rfl

theorem eraseSession (limit : Nat) {programs : List Program} (accepted : ∀ p ∈ programs, p.resolve.2 = [])
    (index : Nat) (s : Observed) :
    ended (watchSession limit index programs s) = s.machine.interpretAll limit programs := by
  induction programs generalizing index s with
  | nil => rfl
  | cons program rest ih =>
    obtain ⟨clean, others⟩ := List.forall_mem_cons.mp accepted
    have same := (watchesUpTo limit).execProgram (some [.program index]) 0 program.resolve.1 s
    have resolved : program.resolve = (program.resolve.1, []) := Prod.ext rfl clean
    change ended (EStateM.bind (Watch.attempt _) _ s) = Option.bind (s.machine.interpret limit program) _
    unfold EStateM.bind Watch.attempt Machine.interpret Run.finish
    rw [resolved]
    cases run : (watcher limit).execProgram (some [.program index]) 0 program.resolve.1 s with
    | ok _ s' =>
      rw [run] at same
      simp only [← same, erase]
      exact ih others (index + 1) s'
    | error halt s' =>
      rw [run] at same
      simp only [← same, erase]
      cases halt with
      | error e => exact ih others (index + 1) s'
      | exhausted => rfl

end Treewalk
