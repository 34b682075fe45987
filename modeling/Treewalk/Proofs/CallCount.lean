import Mathlib.Tactic.ByContra
import Treewalk.Proofs.Frames
import Treewalk.Proofs.Restored

/-! Calls in progress. An observer is shown each phrase, each call and each body of a call when it begins and when it
ends, together with the number of calls whose bodies are being run then, and may stop the run at any such instant. The
count of the machine is that number at all of them, so an observer that looks for another count never stops a run. -/
namespace Treewalk

/- What is being run. The body of a call is all that the call does once it is admitted; that of a class makes an
instance and initializes it. -/
inductive Activity where
  | eval (e : Expr)
  | exec (s : Stmt)
  | call (callee : Callee) (arguments : List Value) (line : Nat)
  | body (callee : Callee) (arguments : List Value) (line : Nat)

inductive Phase where
  | begins
  | ends

structure Instant where
  calls : Nat
  activity : Activity
  phase : Phase
  machine : Machine

abbrev Observer := Instant → Option Halt

def Observer.around (o : Observer) (calls : Nat) (activity : Activity) (action : Run α) : Run α := fun m =>
  match o ⟨calls, activity, .begins, m⟩ with
  | some halt => .error halt m
  | none =>
    let result := action m
    match o ⟨calls, activity, .ends, machineAfter result⟩ with
    | some halt => .error halt (machineAfter result)
    | none => result

mutual

def observeEval (o : Observer) : Nat → Nat → Expr → Run Value
  | 0, _, _ => Run.exhausted
  | n + 1, calls, e => o.around calls (.eval e) <|
    Evaluator.evalRule ⟨observeEval o n calls, observeExec o n calls, observeCall o n calls⟩ e
termination_by structural n _ _ => n

def observeExec (o : Observer) : Nat → Nat → Stmt → Run Completion
  | 0, _, _ => Run.exhausted
  | n + 1, calls, s => o.around calls (.exec s) <|
    Evaluator.execRule ⟨observeEval o n calls, observeExec o n calls, observeCall o n calls⟩ s
termination_by structural n _ _ => n

def observeCall (o : Observer) : Nat → Nat → Callee → List Value → Nat → Run Value
  | 0, _, _, _, _ => Run.exhausted
  | n + 1, calls, callee, arguments, line =>
    o.around calls (.call callee arguments line) <| Run.admitted callee arguments line <|
      o.around (calls + 1) (.body callee arguments line) <|
        Evaluator.start ⟨observeEval o n (calls + 1), observeExec o n (calls + 1), observeCall o n (calls + 1)⟩
          callee arguments line
termination_by structural n _ _ _ _ => n

end

def observed (o : Observer) (limit calls : Nat) : Evaluator :=
  ⟨observeEval o limit calls, observeExec o limit calls, observeCall o limit calls⟩

theorem Observer.passes {o : Observer} {calls : Nat} {activity : Activity} {action : Run α} {m : Machine}
    (unstopped : ∀ phase m', o ⟨calls, activity, phase, m'⟩ = none) : o.around calls activity action m = action m := by
  unfold Observer.around
  simp only [unstopped]

theorem Observer.stops {o : Observer} {calls : Nat} {activity : Activity} {action : Run α} {m : Machine} {halt : Halt}
    (stopped : o ⟨calls, activity, .begins, m⟩ = some halt) : o.around calls activity action m = .error halt m := by
  unfold Observer.around
  simp only [stopped]

/- An observer that stops nothing as long as the machine counts the calls in progress, and these are not too many. -/
def Observer.Content (o : Observer) : Prop :=
  ∀ i : Instant, i.machine.callDepth = i.calls → i.calls ≤ maxCallDepth → o i = none

section
variable {o : Observer} {calls : Nat}

theorem InStep.around {watched action : Run α} (content : o.Content) (few : calls ≤ maxCallDepth)
    (h : InStep calls watched action) (activity : Activity) : InStep calls (o.around calls activity watched) action := by
  intro m count
  obtain ⟨same, kept⟩ := h m count
  have begins : o ⟨calls, activity, .begins, m⟩ = none := content _ count few
  have ends : o ⟨calls, activity, .ends, machineAfter (action m)⟩ = none :=
    content _ (kept.callDepth.trans count) few
  refine ⟨?_, kept⟩
  unfold Observer.around
  simp only [begins, same, ends]

theorem observedParallel (content : o.Content) (limit : Nat) (few : calls ≤ maxCallDepth) :
    Parallel calls (observed o limit calls) (evaluator limit) := by
  induction limit generalizing calls with
  | zero => exact ⟨fun _ => exhaustedInStep calls, fun _ => exhaustedInStep calls, fun _ _ _ => exhaustedInStep calls⟩
  | succ limit ih =>
    refine ⟨fun e => .around content few ((ih few).evalRule e) _, fun s => .around content few ((ih few).execRule s) _, ?_⟩
    intro callee arguments line
    apply InStep.around content few
    apply InStep.admitted
    intro room
    exact .around content room ((ih room).start callee arguments line) _

end

/- An instant is part of a run if an observer that stops the run there and nowhere else does stop it. -/
def Happens (run : Observer → Run α) (m : Machine) (i : Instant) : Prop :=
  ∀ o halt, o i = some halt → (∀ j, j ≠ i → o j = none) → ∃ m', run o m = .error halt m'

theorem Happens.holds {P : Instant → Prop} {run : Observer → Run α} {m : Machine} {i : Instant}
    {plain : EStateM.Result Halt Machine α} (happens : Happens run m i)
    (same : ∀ o : Observer, (∀ j, P j → o j = none) → run o m = plain) : P i := by
  classical
  by_contra wrong
  have stopped : ∀ halt, ∃ m', plain = .error halt m' := by
    intro halt
    have passes : ∀ j, P j → (if j = i then some halt else none) = none := by
      intro j holds
      have other : j ≠ i := by
        rintro rfl
        exact wrong holds
      exact if_neg other
    obtain ⟨m', ends⟩ := happens (fun j => if j = i then some halt else none) halt (if_pos rfl) fun j other => if_neg other
    exact ⟨m', (same _ passes).symm.trans ends⟩
  obtain ⟨_, first⟩ := stopped .exhausted
  obtain ⟨_, second⟩ := stopped (.error ⟨0, .notCallable⟩)
  cases first.symm.trans second

theorem Happens.counted {run : Observer → Run α} {m : Machine} {i : Instant} {plain : EStateM.Result Halt Machine α}
    (happens : Happens run m i) (same : ∀ o : Observer, o.Content → run o m = plain) :
    i.machine.callDepth = i.calls ∧ i.calls ≤ maxCallDepth := by
  have within : ∀ o : Observer,
      (∀ j : Instant, j.machine.callDepth = j.calls ∧ j.calls ≤ maxCallDepth → o j = none) → run o m = plain :=
    fun o passes => same o fun j count few => passes j ⟨count, few⟩
  exact happens.holds within

theorem withinError {action : Run α} {frame : FrameId} {m m' : Machine} {halt : Halt}
    (stopped : action { m with environment := frame } = .error halt m') :
    Run.within frame action m = .error halt { m' with environment := m.environment } := by
  unfold Run.within
  rw [stopped]

theorem countedError {action : Run α} {m m' : Machine} {halt : Halt}
    (stopped : action { m with callDepth := m.callDepth + 1 } = .error halt m') :
    Run.counted action m = .error halt { m' with callDepth := m'.callDepth - 1 } := by
  unfold Run.counted
  rw [stopped]

section
variable {m : Machine} {callee : Callee} {arguments : List Value} {line : Nat}

theorem admittedArity (body : Run Value) (other : arguments.length ≠ m.heap.arity callee) :
    Run.admitted callee arguments line body m =
      .error (.error ⟨line, .arityMismatch (m.heap.arity callee) arguments.length⟩) m := by
  unfold Run.admitted
  rw [if_pos other]
  rfl

theorem admittedFull (body : Run Value) (same : arguments.length = m.heap.arity callee)
    (full : maxCallDepth ≤ m.callDepth) :
    Run.admitted callee arguments line body m = .error (.error ⟨line, .stackOverflow maxCallDepth⟩) m := by
  unfold Run.admitted
  rw [if_neg (Decidable.not_not.mpr same), if_pos full]
  rfl

theorem admittedBody (body : Run Value) (same : arguments.length = m.heap.arity callee)
    (room : m.callDepth < maxCallDepth) : Run.admitted callee arguments line body m = Run.counted body m := by
  unfold Run.admitted
  rw [if_neg (Decidable.not_not.mpr same), if_neg (Nat.not_le.mpr room)]

theorem admittedOk {body : Run Value} {value : Value} {m' : Machine}
    (ends : Run.admitted callee arguments line body m = .ok value m') : arguments.length = m.heap.arity callee ∧
      ∃ m'', body { m with callDepth := m.callDepth + 1 } = .ok value m'' := by
  by_cases same : arguments.length = m.heap.arity callee
  · by_cases full : maxCallDepth ≤ m.callDepth
    · cases (admittedFull body same full).symm.trans ends
    · have counted := (admittedBody body same (Nat.lt_of_not_le full)).symm.trans ends
      unfold Run.counted at counted
      cases run : body { m with callDepth := m.callDepth + 1 } with
      | ok a m'' =>
        rw [run] at counted
        cases counted
        exact ⟨same, m'', rfl⟩
      | error halt m'' =>
        rw [run] at counted
        cases counted
  · cases (admittedArity body same).symm.trans ends

end

def Refused (n calls : Nat) (callee : Callee) (arguments : List Value) (line : Nat) (m : Machine) : Prop :=
  ∀ m', ¬ Happens (fun o => (observed o (n + 1) calls).call callee arguments line) m
    ⟨calls + 1, .body callee arguments line, .begins, m'⟩

section
variable {n calls : Nat} {m : Machine} {callee : Callee} {arguments : List Value} {line : Nat}

theorem refusedOf {e : RuntimeError}
    (ends : ∀ body : Run Value, Run.admitted callee arguments line body m = .error (.error e) m) :
    Refused n calls callee arguments line m := by
  classical
  intro m' happens
  obtain ⟨m'', stopped⟩ := happens (fun j => if j = ⟨calls + 1, .body callee arguments line, .begins, m'⟩ then
    some .exhausted else none) .exhausted (if_pos rfl) fun j other => if_neg other
  have other : ∀ phase m, (⟨calls, .call callee arguments line, phase, m⟩ : Instant) ≠
      ⟨calls + 1, .body callee arguments line, .begins, m'⟩ := by simp
  simp [observed, observeCall, Observer.around, other, ends, machineAfter] at stopped

theorem bodyBegins (same : arguments.length = m.heap.arity callee) (room : m.callDepth < maxCallDepth) :
    Happens (fun o => (observed o (n + 1) calls).call callee arguments line) m
      ⟨calls + 1, .body callee arguments line, .begins, { m with callDepth := m.callDepth + 1 }⟩ := by
  intro o halt stops passes
  have other : ∀ phase m', o ⟨calls, .call callee arguments line, phase, m'⟩ = none := by
    intro phase m'
    apply passes
    simp
  refine ⟨m, ?_⟩
  simp [observed, observeCall, Observer.around, other, admittedBody _ same room, Run.counted, stops]

end

/- A call at an instant where it begins: it is refused for a wrong number of arguments, or else for too many calls in
progress, and then the machine is just as it was. -/
structure Guarded (i : Instant) (callee : Callee) (arguments : List Value) (line : Nat) : Prop where
  refused : ∀ n, Refused n i.calls callee arguments line i.machine ↔
    arguments.length ≠ i.machine.heap.arity callee ∨
      (arguments.length = i.machine.heap.arity callee ∧ i.calls = 1000)
  wrongCount : ∀ n, arguments.length ≠ i.machine.heap.arity callee →
    (evaluator (n + 1)).call callee arguments line i.machine =
      .error (.error ⟨line, .arityMismatch (i.machine.heap.arity callee) arguments.length⟩) i.machine
  tooDeep : ∀ n, arguments.length = i.machine.heap.arity callee → i.calls = 1000 →
    (evaluator (n + 1)).call callee arguments line i.machine =
      .error (.error ⟨line, .stackOverflow 1000⟩) i.machine

theorem guarded {i : Instant} (count : i.machine.callDepth = i.calls) (few : i.calls ≤ maxCallDepth) (callee : Callee)
    (arguments : List Value) (line : Nat) : Guarded i callee arguments line := by
  have full : i.calls = maxCallDepth → maxCallDepth ≤ i.machine.callDepth :=
    fun here => Nat.le_of_eq (count.trans here).symm
  constructor
  · intro n
    constructor
    · intro refused
      by_contra admitted
      obtain ⟨same, notFull⟩ := not_or.mp admitted
      have same := Decidable.not_not.mp same
      have room : i.machine.callDepth < maxCallDepth := by
        rw [count]
        exact Nat.lt_of_le_of_ne few fun here => notFull ⟨same, here⟩
      exact refused _ (bodyBegins same room)
    · intro reason
      cases reason with
      | inl other => exact refusedOf fun body => admittedArity body other
      | inr both => exact refusedOf fun body => admittedFull body both.1 (full both.2)
  · exact fun n other => admittedArity _ other
  · exact fun n same here => admittedFull _ same (full here)

/- Whenever anything begins or ends in a run of a program, resolved or not, the machine counts the calls in progress,
which are never more than the limit, and every call that begins is guarded. Unstopped, an observed run is the run. -/
theorem callsCounted (limit : Nat) (program : Program) {m : Machine} (rest : m.AtRest) :
    (observed (fun _ => none) limit 0).execProgram program m = (evaluator limit).execProgram program m ∧
    ∀ i, Happens (fun o => (observed o limit 0).execProgram program) m i →
      i.machine.callDepth = i.calls ∧ i.calls ≤ 1000 ∧
      ∀ callee arguments line, i.activity = .call callee arguments line → i.phase = .begins →
        Guarded i callee arguments line := by
  have same : ∀ o : Observer, o.Content →
      (observed o limit 0).execProgram program m = (evaluator limit).execProgram program m :=
    fun o content => ((observedParallel content limit (Nat.zero_le _)).execProgram program m rest.calls).1
  refine ⟨same _ fun _ _ _ => rfl, ?_⟩
  intro i happens
  obtain ⟨count, few⟩ := happens.counted same
  exact ⟨count, few, fun callee arguments line _ _ => guarded count few callee arguments line⟩

structure Observer.OfCalls (o : Observer) : Prop where
  eval : ∀ calls e phase m, o ⟨calls, .eval e, phase, m⟩ = none
  exec : ∀ calls s phase m, o ⟨calls, .exec s, phase, m⟩ = none
  body : ∀ calls callee arguments line phase m, o ⟨calls, .body callee arguments line, phase, m⟩ = none

namespace Observer.OfCalls
variable {o : Observer} {n calls : Nat} {m m' : Machine} {halt : Halt}

theorem ofInstant {i : Instant} {callee : Callee} {arguments : List Value} {line : Nat}
    (call : i.activity = .call callee arguments line) (passes : ∀ j, j ≠ i → o j = none) : o.OfCalls := by
  constructor
  all_goals
    intros
    apply passes
    rintro rfl
    cases call

theorem callEvaluated (h : o.OfCalls) {name : Ident} {value : Value} {callee : Callee} {arguments : List Expr}
    {values : List Value} {line : Nat} (found : Run.lookUp name none m = .ok value m)
    (callable : Run.callee? value m = .ok (some callee) m)
    (given : (observed o (n + 1) calls).evalAll arguments m = .ok values m) :
    (observed o (n + 2) calls).eval (.call (.var name none) arguments line) m =
      (observed o (n + 1) calls).call callee values line m := by
  have read : (observed o (n + 1) calls).eval (.var name none) m = .ok value m :=
    (Observer.passes (h.eval calls _)).trans found
  exact (Observer.passes (h.eval calls _)).trans ((afterOk read).trans ((afterOk callable).trans (afterOk given)))

theorem statementStopped (h : o.OfCalls) {e : Expr} (stopped : (observed o n calls).eval e m = .error halt m') :
    (observed o (n + 1) calls).exec (.expression e) m = .error halt m' :=
  (Observer.passes (h.exec calls _)).trans (afterError stopped)

end Observer.OfCalls

def crowdedProgram : Program := [.expression (.call (.var ⟨"clock", 1⟩ none) [.literal .nil 1] 1)]

def crowdedCall : Instant := ⟨0, .call (.callable (.native .clock)) [.nil] 1, .begins, .initial 0⟩

theorem crowdedCallHappens :
    Happens (fun o => (observed o 4 0).execProgram crowdedProgram) (Machine.initial 0) crowdedCall := by
  intro o halt stops passes
  have ofCalls : o.OfCalls := .ofInstant rfl passes
  have literal : (observed o 2 0).eval (.literal .nil 1) (.initial 0) = .ok .nil (.initial 0) :=
    Observer.passes (ofCalls.eval 0 _)
  have argument : (observed o 2 0).evalAll [.literal .nil 1] (.initial 0) = .ok [.nil] (.initial 0) := by
    simp only [Evaluator.evalAll, bind, EStateM.bind, literal, pure, EStateM.pure]
  have called : (observed o 3 0).eval (.call (.var ⟨"clock", 1⟩ none) [.literal .nil 1] 1) (.initial 0) =
      .error halt (.initial 0) := (ofCalls.callEvaluated rfl rfl argument).trans (Observer.stops stops)
  exact ⟨.initial 0, afterError (ofCalls.statementStopped called)⟩

def divingCall : Expr := .call (.var ⟨"dive", 1⟩ none) [] 1

def diver : Function := ⟨⟨some ⟨"dive", 1⟩, [], [.expression divingCall], 1⟩, ⟨0⟩, false⟩

def divingProgram : Program := [.funDecl diver.decl, .expression divingCall]

def divingStart : Machine := ((Machine.initial 0).addCallable (.function diver)).define ⟨0⟩ "dive" (.function ⟨1⟩)

def Machine.dived (m : Machine) : Machine :=
  let called := Machine.addFrame { m with callDepth := m.callDepth + 1 } ⟨0⟩
  { called.addFrame m.heap.frames.nextId with environment := called.heap.frames.nextId }

def Machine.divedTimes : Nat → Machine → Machine
  | 0, m => m
  | times + 1, m => m.dived.divedTimes times

def deepCall (times : Nat) : Instant :=
  ⟨times, .call (.callable (.function diver)) [] 1, .begins, divingStart.divedTimes times⟩

structure Diving (m : Machine) : Prop where
  globals : m.globals = ⟨0⟩
  root : ∃ frame, m.heap.frames.frame? ⟨0⟩ = some frame ∧ frame.parent = none ∧
    frame.bindings.find? "dive" = some (.function ⟨1⟩)
  function : m.heap.callable? ⟨1⟩ = some (.function diver)

namespace Diving
variable {o : Observer} {n calls : Nat} {m m' : Machine} {halt : Halt}

theorem start : Diving divingStart := ⟨rfl, ⟨_, rfl, rfl, rfl⟩, rfl⟩

theorem framed (d : Diving m) (parent : FrameId) : Diving (m.addFrame parent) := by
  obtain ⟨frame, found, top, bound⟩ := d.root
  exact ⟨d.globals, ⟨frame, Frames.addedKept _ parent _ _ found, top, bound⟩, d.function⟩

theorem dived (d : Diving m) : Diving m.dived := by
  have called : Diving { m with callDepth := m.callDepth + 1 } := ⟨d.globals, d.root, d.function⟩
  have inside := (called.framed ⟨0⟩).framed m.heap.frames.nextId
  exact ⟨inside.globals, inside.root, inside.function⟩

theorem found (d : Diving m) : Run.lookUp ⟨"dive", 1⟩ none m = .ok (.function ⟨1⟩) m := by
  obtain ⟨frame, found, top, bound⟩ := d.root
  have parent : m.heap.frames.parent? ⟨0⟩ = none := by rw [Frames.parent?, found, Option.bind_some, top]
  have value : m.heap.frames.getGlobal m.globals "dive" 1 = .ok (.function ⟨1⟩) := by
    rw [Frames.getGlobal, d.globals, Frames.outermost, Frames.climbTop parent, Frames.get?, found, Option.bind_some, bound]
  exact congrArg (Run.ofExcept · m) value

theorem callable (d : Diving m) : Run.callee? (.function ⟨1⟩) m = .ok (some (.callable (.function diver))) m := by
  have callee : m.heap.callee? (.function ⟨1⟩) = some (.callable (.function diver)) := by
    rw [Heap.callee?, d.function, Option.map_some]
  exact congrArg (EStateM.Result.ok · m) callee

theorem called (d : Diving m) (ofCalls : o.OfCalls) : (observed o (n + 2) calls).eval divingCall m =
    (observed o (n + 1) calls).call (.callable (.function diver)) [] 1 m :=
  ofCalls.callEvaluated d.found d.callable rfl

theorem around (d : Diving m) (ofCalls : o.OfCalls) (room : m.callDepth < maxCallDepth)
    (unstopped : ∀ phase m, o ⟨calls, .call (.callable (.function diver)) [] 1, phase, m⟩ = none)
    (stopped : (observed o (n + 1) (calls + 1)).call (.callable (.function diver)) [] 1 m.dived = .error halt m') :
    ∃ m'', (observed o (n + 4) calls).call (.callable (.function diver)) [] 1 m = .error halt m'' := by
  have statement := ofCalls.statementStopped ((d.dived.called ofCalls).trans stopped)
  have body : (observed o (n + 3) (calls + 1)).execAll diver.decl.body m.dived = .error halt m' := afterError statement
  have invoked : (observed o (n + 3) (calls + 1)).invoke diver [] 1 { m with callDepth := m.callDepth + 1 } =
      .error halt { m' with environment := m.environment } :=
    (afterOk rfl).trans ((afterOk rfl).trans (afterError ((afterOk rfl).trans (withinError body))))
  have counted := countedError
    ((Observer.passes (ofCalls.body (calls + 1) (.callable (.function diver)) [] 1)).trans invoked)
  exact ⟨_, (Observer.passes unstopped).trans ((admittedBody _ rfl room).trans counted)⟩

theorem reaches (d : Diving m) (ofCalls : o.OfCalls) {times total : Nat} (last : m.callDepth + times = total)
    (few : total ≤ maxCallDepth) (count : m.callDepth = calls)
    (unstopped : ∀ fewer < total, ∀ phase m, o ⟨fewer, .call (.callable (.function diver)) [] 1, phase, m⟩ = none)
    (stops : o ⟨total, .call (.callable (.function diver)) [] 1, .begins, m.divedTimes times⟩ = some halt) :
    ∃ m', (observed o (3 * times + 1) calls).call (.callable (.function diver)) [] 1 m = .error halt m' := by
  subst count
  induction times generalizing m with
  | zero =>
    subst last
    exact ⟨m, Observer.stops stops⟩
  | succ times ih =>
    obtain ⟨m', stopped⟩ := ih d.dived ((Nat.succ_add_eq_add_succ _ _).trans last) stops
    exact d.around ofCalls (by omega) (unstopped _ (by omega)) stopped

end Diving

theorem deepCallHappens {times : Nat} (room : times ≤ maxCallDepth) :
    Happens (fun o => (observed o (3 * times + 3) 0).execProgram divingProgram) (Machine.initial 0) (deepCall times) := by
  intro o halt stops passes
  have ofCalls : o.OfCalls := .ofInstant rfl passes
  have unstopped : ∀ fewer < times, ∀ phase m,
      o ⟨fewer, .call (.callable (.function diver)) [] 1, phase, m⟩ = none := by
    intro fewer less phase m
    apply passes
    intro same
    have count : fewer = times := congrArg Instant.calls same
    omega
  have declared : (observed o (3 * times + 3) 0).exec (.funDecl diver.decl) (Machine.initial 0) =
      .ok .normal divingStart := Observer.passes (ofCalls.exec 0 _)
  obtain ⟨m', stopped⟩ := Diving.start.reaches ofCalls (Nat.zero_add times) room rfl unstopped stops
  have statement := ofCalls.statementStopped ((Diving.start.called ofCalls).trans stopped)
  exact ⟨m', (afterOk declared).trans (afterError statement)⟩

theorem crowdedCallRefused : (Machine.initial 0).AtRest ∧
    (Happens (fun o => (observed o 4 0).execProgram crowdedProgram) (Machine.initial 0) crowdedCall ∧
      Refused 3 0 (.callable (.native .clock)) [.nil] 1 (.initial 0) ∧
      (evaluator 4).call (.callable (.native .clock)) [.nil] 1 (.initial 0) =
        .error (.error ⟨1, .arityMismatch 0 1⟩) (.initial 0)) ∧
    (Happens (fun o => (observed o (3 * 1000 + 3) 0).execProgram divingProgram) (Machine.initial 0) (deepCall 1000) ∧
      Refused 3 1000 (.callable (.function diver)) [] 1 (deepCall 1000).machine ∧
      (evaluator 4).call (.callable (.function diver)) [] 1 (deepCall 1000).machine =
        .error (.error ⟨1, .stackOverflow 1000⟩) (deepCall 1000).machine) := by
  have rest := Machine.initialAtRest 0
  have crowded := ((callsCounted 4 crowdedProgram rest).2 crowdedCall crowdedCallHappens).2.2 _ _ _ rfl rfl
  have deepHappens := @deepCallHappens 1000 (Nat.le_refl maxCallDepth)
  have deep := ((callsCounted _ divingProgram rest).2 (deepCall 1000) deepHappens).2.2 _ _ _ rfl rfl
  exact ⟨rest, ⟨crowdedCallHappens, (crowded.refused 3).mpr (.inl (by decide)), crowded.wrongCount 3 (by decide)⟩,
    deepHappens, (deep.refused 3).mpr (.inr ⟨rfl, rfl⟩), deep.tooDeep 3 rfl rfl⟩

end Treewalk
