import Treewalk.Proofs.Related

/-! What every run leaves as it was: the current frame, the count of calls and the globals. Two runs that start with
the same count are followed in step, one of them possibly watched from outside; what a rule does with its parts is
said once for both. With the run itself as the other one, nothing is left but that it restores what it changed. -/
namespace Treewalk

def InStep (calls : Nat) (watched action : Run α) : Prop :=
  ∀ m, m.callDepth = calls → watched m = action m ∧ Kept m (machineAfter (action m))

namespace InStep
variable {calls : Nat}

theorem keeps {action : Run α} (h : Keeps action) : InStep calls action action := fun m _ => ⟨rfl, h m⟩

theorem bind {watched action : Run α} {watchedNext next : α → Run β} (first : InStep calls watched action)
    (second : ∀ a, InStep calls (watchedNext a) (next a)) : InStep calls (watched >>= watchedNext) (action >>= next) := by
  intro m count
  obtain ⟨same, kept⟩ := first m count
  change EStateM.bind watched watchedNext m = EStateM.bind action next m ∧
    Kept m (machineAfter (EStateM.bind action next m))
  unfold EStateM.bind
  rw [same]
  cases run : action m with
  | ok a m' =>
    rw [run] at kept
    obtain ⟨same', kept'⟩ := second a m' (kept.callDepth.trans count)
    exact ⟨same', kept.trans kept'⟩
  | error e m' =>
    rw [run] at kept
    exact ⟨rfl, kept⟩

theorem within {watched action : Run α} (frame : FrameId) (h : InStep calls watched action) :
    InStep calls (Run.within frame watched) (Run.within frame action) := by
  intro m count
  obtain ⟨same, kept⟩ := h { m with environment := frame } count
  unfold Run.within
  dsimp only
  rw [same]
  cases run : action { m with environment := frame } with
  | ok a m' =>
    rw [run] at kept
    exact ⟨rfl, rfl, kept.callDepth, kept.globals⟩
  | error e m' =>
    rw [run] at kept
    exact ⟨rfl, rfl, kept.callDepth, kept.globals⟩

theorem congruence (calls : Nat) : Congruence fun _ => InStep calls := ⟨.keeps, .bind, .within⟩

theorem counted {watched action : Run α} (h : InStep (calls + 1) watched action) :
    InStep calls (Run.counted watched) (Run.counted action) := by
  intro m count
  obtain ⟨same, kept⟩ := h { m with callDepth := m.callDepth + 1 } (congrArg (· + 1) count)
  unfold Run.counted
  rw [same]
  cases run : action { m with callDepth := m.callDepth + 1 } with
  | ok a m' =>
    rw [run] at kept
    exact ⟨rfl, kept.environment, congrArg (· - 1) kept.callDepth, kept.globals⟩
  | error e m' =>
    rw [run] at kept
    exact ⟨rfl, kept.environment, congrArg (· - 1) kept.callDepth, kept.globals⟩

end InStep

def Run.admitted (callee : Callee) (arguments : List Value) (line : Nat) (body : Run Value) : Run Value := fun m =>
  let arity := m.heap.arity callee
  if arguments.length ≠ arity then
    Run.fault line (.arityMismatch arity arguments.length) m
  else if m.callDepth ≥ maxCallDepth then
    Run.fault line (.stackOverflow maxCallDepth) m
  else Run.counted body m

theorem callRuleAdmitted (r : Evaluator) (callee : Callee) (arguments : List Value) (line : Nat) :
    r.callRule callee arguments line = Run.admitted callee arguments line (r.start callee arguments line) := rfl

theorem InStep.admitted {calls : Nat} {callee : Callee} {arguments : List Value} {line : Nat}
    {watched action : Run Value} (h : calls < maxCallDepth → InStep (calls + 1) watched action) :
    InStep calls (Run.admitted callee arguments line watched) (Run.admitted callee arguments line action) := by
  intro m count
  unfold Run.admitted
  dsimp only
  split
  · exact ⟨rfl, .refl m⟩
  · split
    · exact ⟨rfl, .refl m⟩
    · rename_i few
      rw [count] at few
      exact counted (h (Nat.lt_of_not_le few)) m count

structure Parallel (calls : Nat) (watched r : Evaluator) : Prop where
  eval : ∀ e, InStep calls (watched.eval e) (r.eval e)
  exec : ∀ s, InStep calls (watched.exec s) (r.exec s)
  call : ∀ callee arguments line, InStep calls (watched.call callee arguments line) (r.call callee arguments line)

namespace Parallel
variable {calls : Nat} {watched r : Evaluator}

theorem related (h : Parallel calls watched r) : Related (fun _ => InStep calls) watched r := ⟨h.eval, h.exec, h.call⟩

theorem evalRule (h : Parallel calls watched r) (e : Expr) : InStep calls (watched.evalRule e) (r.evalRule e) :=
  (InStep.congruence calls).evalRule h.related e

theorem execRule (h : Parallel calls watched r) (s : Stmt) : InStep calls (watched.execRule s) (r.execRule s) :=
  (InStep.congruence calls).execRule h.related s

theorem start (h : Parallel calls watched r) (callee : Callee) (arguments : List Value) (line : Nat) :
    InStep calls (watched.start callee arguments line) (r.start callee arguments line) :=
  (InStep.congruence calls).start h.related callee arguments line

theorem callRule (h : Parallel (calls + 1) watched r) (callee : Callee) (arguments : List Value) (line : Nat) :
    InStep calls (watched.callRule callee arguments line) (r.callRule callee arguments line) := by
  rw [callRuleAdmitted, callRuleAdmitted]
  exact .admitted fun _ => h.start callee arguments line

theorem execProgram (h : Parallel calls watched r) (program : Program) :
    InStep calls (watched.execProgram program) (r.execProgram program) :=
  (InStep.congruence calls).execProgram h.related program

end Parallel

theorem exhaustedInStep (calls : Nat) : InStep calls (Run.exhausted (α := α)) Run.exhausted :=
  .keeps fun m => .refl m

theorem evaluatorParallel (limit calls : Nat) : Parallel calls (evaluator limit) (evaluator limit) := by
  induction limit generalizing calls with
  | zero => exact ⟨fun _ => exhaustedInStep calls, fun _ => exhaustedInStep calls, fun _ _ _ => exhaustedInStep calls⟩
  | succ limit ih =>
    exact ⟨fun e => (ih calls).evalRule e, fun s => (ih calls).execRule s,
      fun callee arguments line => (ih (calls + 1)).callRule callee arguments line⟩

theorem InStep.kept {action : Run α} (h : ∀ calls, InStep calls action action) : Keeps action :=
  fun m => (h m.callDepth m rfl).2

theorem afterOk {action : Run α} {next : α → Run β} {m m' : Machine} {a : α} (first : action m = .ok a m') :
    (action >>= next) m = next a m' := by
  change EStateM.bind action next m = _
  unfold EStateM.bind
  rw [first]

theorem afterError {action : Run α} {next : α → Run β} {m m' : Machine} {halt : Halt}
    (first : action m = .error halt m') : (action >>= next) m = .error halt m' := by
  change EStateM.bind action next m = _
  unfold EStateM.bind
  rw [first]

theorem okParts {action : Run α} {next : α → Run β} {m m'' : Machine} {b : β}
    (ends : (action >>= next) m = .ok b m'') : ∃ a m', action m = .ok a m' ∧ next a m' = .ok b m'' := by
  cases run : action m with
  | ok a m' => exact ⟨a, m', rfl, (afterOk run).symm.trans ends⟩
  | error halt m' => cases (afterError run).symm.trans ends

theorem finishAfter {action : Run α} {m m' : Machine} {outcome : Except RuntimeError α}
    (ends : action.finish m = some (outcome, m')) : machineAfter (action m) = m' := by
  unfold Run.finish at ends
  cases run : action m with
  | ok a after =>
    rw [run] at ends
    cases ends
    rfl
  | error halt after =>
    rw [run] at ends
    cases halt with
    | error e =>
      cases ends
      rfl
    | exhausted => cases ends

theorem Keeps.finish {action : Run α} (h : Keeps action) {m m' : Machine} {outcome : Except RuntimeError α}
    (ends : action.finish m = some (outcome, m')) : Kept m m' := by
  have kept := h m
  rwa [finishAfter ends] at kept

/- What a host asks of a machine. A program is interpreted, that is resolved first, or executed as it is. -/
inductive Request where
  | interpret (program : Program)
  | execute (program : Program)
  | evaluate (e : Expr)
  | call (callee : Value) (arguments : List Value) (line : Nat)
  | define (name : String) (value : Value)

def Machine.serve (limit : Nat) (m : Machine) : Request → Option Machine
  | .interpret program => (m.interpret limit program).map Prod.snd
  | .execute program => (((evaluator limit).execProgram program).finish m).map Prod.snd
  | .evaluate e => (m.evaluate limit e).map Prod.snd
  | .call callee arguments line => (m.callValue limit callee arguments line).map Prod.snd
  | .define name value => some (m.defineGlobal name value)

def Request.run (r : Evaluator) : Request → Run Unit
  | .interpret program => if program.resolve.2.isEmpty then r.execProgram program.resolve.1 else return ()
  | .execute program => r.execProgram program
  | .evaluate e => do
    let _ ← r.eval e
  | .call callee arguments line => do
    match ← Run.callee? callee with
    | some target =>
      let _ ← r.call target arguments line
    | none => return ()
  | .define name value => fun m => .ok () (m.defineGlobal name value)

theorem finishDropped (action : Run α) (m : Machine) :
    ((do let _ ← action : Run Unit).finish m).map Prod.snd = (action.finish m).map Prod.snd := by
  unfold Run.finish
  cases run : action m with
  | ok a m' =>
    rw [afterOk run]
    rfl
  | error halt m' =>
    rw [afterError run]
    cases halt <;> rfl

theorem serveRuns (limit : Nat) (m : Machine) (request : Request) :
    m.serve limit request = ((request.run (evaluator limit)).finish m).map Prod.snd := by
  cases request with
  | interpret program =>
    simp only [Machine.serve, Machine.interpret, Request.run]
    generalize program.resolve = outcome
    obtain ⟨resolved, errors⟩ := outcome
    cases errors with
    | nil => simp [Option.map_map, Function.comp_def]
    | cons first rest => rfl
  | execute program => rfl
  | evaluate e => exact (finishDropped _ m).symm
  | call callee arguments line =>
    have looked : Run.callee? callee m = .ok (m.heap.callee? callee) m := rfl
    simp only [Machine.serve, Machine.callValue]
    cases found : m.heap.callee? callee with
    | none =>
      rw [found] at looked
      have opened : (Request.call callee arguments line).run (evaluator limit) m = .ok () m := afterOk looked
      simp only [Run.finish, opened, Option.map_some]
    | some target =>
      rw [found] at looked
      have opened : (Request.call callee arguments line).run (evaluator limit) m =
          (do let _ ← (evaluator limit).call target arguments line : Run Unit) m := afterOk looked
      have dropped := finishDropped ((evaluator limit).call target arguments line) m
      unfold Run.finish at dropped ⊢
      rw [opened, dropped, Option.map_map]
      rfl
  | define name value => rfl

theorem requestKeeps (limit : Nat) (request : Request) : Keeps (request.run (evaluator limit)) := by
  refine InStep.kept fun calls => ?_
  have parallel := evaluatorParallel limit calls
  have ends : InStep calls (pure () : Run Unit) (pure ()) := .keeps fun m => .refl m
  cases request with
  | interpret program =>
    unfold Request.run
    dsimp only
    split
    · exact parallel.execProgram program.resolve.1
    · exact ends
  | execute program => exact parallel.execProgram program
  | evaluate e => exact (parallel.eval e).bind fun _ => ends
  | call callee arguments line =>
    have looked : InStep calls (Run.callee? callee) (Run.callee? callee) := .keeps fun m => .refl m
    refine looked.bind fun target => ?_
    cases target with
    | none => exact ends
    | some target => exact (parallel.call target arguments line).bind fun _ => ends
  | define name value => exact .keeps fun m => ⟨rfl, rfl, rfl⟩

theorem serveKeeps {limit : Nat} {m m' : Machine} {request : Request} (served : m.serve limit request = some m') :
    Kept m m' := by
  rw [serveRuns] at served
  obtain ⟨⟨outcome, after⟩, ends, rfl⟩ := Option.map_eq_some_iff.mp served
  exact (requestKeeps limit request).finish ends

structure Machine.AtRest (m : Machine) : Prop where
  top : m.environment = m.globals
  calls : m.callDepth = 0

theorem Machine.AtRest.kept {m m' : Machine} (rest : m.AtRest) (kept : Kept m m') : m'.AtRest :=
  ⟨kept.environment.trans (rest.top.trans kept.globals.symm), kept.callDepth.trans rest.calls⟩

theorem sessionKeeps {limit : Nat} {m m' : Machine} {requests : List Request}
    (served : requests.foldlM (Machine.serve limit) m = some m') : Kept m m' := by
  induction requests generalizing m with
  | nil =>
    cases served
    exact .refl _
  | cons request requests ih =>
    rw [List.foldlM_cons] at served
    obtain ⟨after, first, others⟩ := Option.bind_eq_some_iff.mp served
    exact (serveKeeps first).trans (ih others)

/- However an expression, a statement or a call ends, on whatever machine, the current frame and the count of calls
are what they were before. So between the requests of a session the machine is at rest, on the globals it started
with. -/
theorem frameAndCallsRestored (limit : Nat) (m : Machine) :
    (∀ e outcome (m' : Machine), ((evaluator limit).eval e).finish m = some (outcome, m') →
      m'.environment = m.environment ∧ m'.callDepth = m.callDepth) ∧
    (∀ s outcome (m' : Machine), ((evaluator limit).exec s).finish m = some (outcome, m') →
      m'.environment = m.environment ∧ m'.callDepth = m.callDepth) ∧
    (∀ callee arguments line outcome (m' : Machine),
      ((evaluator limit).call callee arguments line).finish m = some (outcome, m') →
        m'.environment = m.environment ∧ m'.callDepth = m.callDepth) ∧
    (m.AtRest → ∀ (requests : List Request) (m' : Machine), requests.foldlM (Machine.serve limit) m = some m' →
      m'.AtRest ∧ m'.globals = m.globals) := by
  refine ⟨?_, ?_, ?_, ?_⟩
  · intro e outcome m' ends
    have kept := (InStep.kept fun calls => (evaluatorParallel limit calls).eval e).finish ends
    exact ⟨kept.environment, kept.callDepth⟩
  · intro s outcome m' ends
    have kept := (InStep.kept fun calls => (evaluatorParallel limit calls).exec s).finish ends
    exact ⟨kept.environment, kept.callDepth⟩
  · intro callee arguments line outcome m' ends
    have kept := (InStep.kept fun calls => (evaluatorParallel limit calls).call callee arguments line).finish ends
    exact ⟨kept.environment, kept.callDepth⟩
  · intro rest requests m' served
    have kept := sessionKeeps served
    exact ⟨rest.kept kept, kept.globals⟩

theorem Machine.initialAtRest (milliseconds : Nat) : (Machine.initial milliseconds).AtRest := ⟨rfl, rfl⟩

def failingProgram : Program :=
  [.funDecl ⟨some ⟨"f", 1⟩, [⟨"a", 1⟩], [.block [.expression (.unary .negate (.var ⟨"a", 1⟩ none) 1)]], 1⟩,
    .expression (.call (.var ⟨"f", 2⟩ none) [.literal .nil 2] 2)]

def failingSession : List Request := [.interpret failingProgram, .evaluate (.var ⟨"f", 3⟩ none)]

theorem failingSessionEnds : (failingSession.foldlM (Machine.serve 9) (Machine.initial 0)).isSome = true := by decide +kernel

theorem failingSessionRestored : (Machine.initial 0).AtRest ∧
    ((Machine.initial 0).interpret 9 failingProgram).map (·.1.diagnostics) =
      some [.runtime ⟨1, .operandNotNumber .nil⟩] ∧
    ∃ m, failingSession.foldlM (Machine.serve 9) (Machine.initial 0) = some m ∧ m.AtRest := by
  obtain ⟨m, ends⟩ := Option.isSome_iff_exists.mp failingSessionEnds
  have restored := (frameAndCallsRestored 9 (Machine.initial 0)).2.2.2 (Machine.initialAtRest 0) failingSession m ends
  exact ⟨Machine.initialAtRest 0, by decide +kernel, m, ends, restored.1⟩

end Treewalk
