import Treewalk.Proofs.Initializers.Rules
import Treewalk.Proofs.Limits
import Treewalk.Proofs.Receivers.Right

/-! What becomes of calls that initialize. At every instant of a session of parsed programs, resolved or not, the heap
is proper; so a call of a class that begins to run makes an instance of that class unless the body of the initializer
fails, and a call of an initializer comes to the instance it is bound to. -/
namespace Treewalk

def Activity.Fits (h : Heap) : Activity → Prop
  | .eval e => "this" ∉ e.words
  | .exec s => "this" ∉ s.words
  | .call callee _ _ => h.EquippedCallee callee
  | .body callee _ _ => h.EquippedCallee callee

theorem Activity.Fits.lasts {h h' : Heap} {activity : Activity} (fits : activity.Fits h) (lasts : h.Lasts h') :
    activity.Fits h' := by
  cases activity with
  | eval e => exact fits
  | exec s => exact fits
  | call callee arguments line => exact lasts.equippedCallee fits
  | body callee arguments line => exact lasts.equippedCallee fits

structure Instant.Proper (i : Instant) : Prop where
  heap : i.machine.heap.Proper
  fits : i.activity.Fits i.machine.heap
  admitted : i.phase = .begins → ∀ callee arguments line, i.activity = .body callee arguments line →
    arguments.length = i.machine.heap.arity callee

def Observer.Lenient (o : Observer) : Prop := ∀ i : Instant, i.Proper → o i = none

section Observed
variable {o : Observer} {calls : Nat} {s : Observed}

theorem initializingAround {activity : Activity} {w : Watch α} {action : Run α} {post : α → Observed → Prop}
    (lenient : o.Lenient) (proper : s.machine.heap.Proper) (fits : activity.Fits s.machine.heap)
    (admitted : ∀ callee arguments line, activity = .body callee arguments line →
      arguments.length = s.machine.heap.arity callee)
    (inner : initializing.Survives s w action post) :
    initializing.Survives s w (o.around calls activity action) post := by
  obtain ⟨same, moves, known⟩ := inner
  have begins : o ⟨calls, activity, .begins, s.machine⟩ = none := lenient _ ⟨proper, fits, fun _ => admitted⟩
  have ends : o ⟨calls, activity, .ends, machineAfter (action s.machine)⟩ = none := by
    rw [erasedAfter same]
    exact lenient _ ⟨moves.proper, fits.lasts moves.lasts, by simp⟩
  refine ⟨?_, moves, known⟩
  unfold Observer.around
  simp only [begins, ends]
  exact same

theorem observedUpheld (lenient : o.Lenient) (limit calls : Nat) :
    initializing.Upheld (watcher limit) (observed o limit calls) := by
  have h := initializingInductive
  induction limit generalizing calls with
  | zero => exact ⟨fun holds _ => h.exhausted holds, fun holds _ => h.exhausted holds, fun _ holds _ _ => h.exhausted holds⟩
  | succ limit ih =>
    constructor
    · intro s address e proper spared
      refine h.recording proper spared fun s' same moves => ?_
      subst same
      exact initializingAround lenient moves.proper spared (by simp)
        (h.evalRule (ih calls) moves.proper List.mem_cons_self spared)
    · intro s address st proper spared
      refine h.recording proper spared fun s' same moves => ?_
      subst same
      exact initializingAround lenient moves.proper spared (by simp)
        (h.execRule (ih calls) moves.proper List.mem_cons_self spared)
    · intro s origin callee arguments line proper equipped given
      refine initializingAround lenient proper equipped (by simp) (h.admitted line proper fun enough => ?_)
      have inner := h.startInside (ih (calls + 1)) proper equipped given enough line
      refine initializingAround lenient proper equipped ?_ inner
      intro _ _ _ same
      cases same
      exact enough

theorem evaluatorUpheld (limit : Nat) : initializing.Upheld (watcher limit) (evaluator limit) :=
  initializingInductive.upTo limit

end Observed

/- A call of an initializer: it is given as many arguments as it has parameters; if its body ends, `this` is found, and
is the instance; so the call comes to the instance, or else fails as the body does. -/
structure Initializes (f : Function) (x : InstanceId) (arguments : List Value) (line : Nat) (m : Machine) : Prop where
  count : arguments.length = f.decl.params.length
  found : ∀ n completion m', (evaluator n).runBody f arguments m = .ok completion m' →
    f.receiver line m' = .ok (.instanceObject x) m'
  comes : ∀ n, (evaluator n).invoke f arguments line m =
    (do let _ ← (evaluator n).runBody f arguments; return Value.instanceObject x) m

/- A call of a class: the initializer that the class has or inherits is called for a new instance. Whatever the limit,
the call comes to an instance that was not there before and whose class it is, or fails as the body of that initializer
does. -/
structure Constructs (cls : ClassId) (arguments : List Value) (line : Nat) (m : Machine) : Prop where
  initializes : ∀ f, m.heap.findMethod? cls "init" = some f → ∃ bound before,
    f.bind ⟨m.heap.instances.size⟩ (m.addInstance ⟨cls, .empty⟩) = .ok bound before ∧
      Initializes bound ⟨m.heap.instances.size⟩ arguments line before
  ends : ∀ n,
    (∃ x i m', (evaluator n).start (.construct cls) arguments line m = .ok (.instanceObject x) m' ∧
      m.heap.instance? x = none ∧ m'.heap.instance? x = some i ∧ i.cls = cls) ∨
    ∃ f bound before halt m', m.heap.findMethod? cls "init" = some f ∧
      f.bind ⟨m.heap.instances.size⟩ (m.addInstance ⟨cls, .empty⟩) = .ok bound before ∧
      (evaluator n).runBody bound arguments before = .error halt m' ∧
      (evaluator n).start (.construct cls) arguments line m = .error halt m'

def InitReturns (object : Expr) (arguments : List Expr) (line nameLine : Nat) (m : Machine) : Prop :=
  ∀ n x before, (evaluator n).eval object m = .ok (.instanceObject x) before →
    (before.heap.instance? x).bind (·.fields.find? "init") = none →
    ∀ n' value m', (evaluator n').eval (.call (.get object ⟨"init", nameLine⟩) arguments line) m = .ok value m' →
      value = .instanceObject x

section Calls
variable {m : Machine} {arguments : List Value} {line : Nat}

theorem bodyAdvances {f : Function} (proper : m.heap.Proper) (equipped : m.heap.Equipped f)
    (count : arguments.length = f.decl.params.length) {n : Nat} {completion : Completion} {m' : Machine}
    (ran : (evaluator n).runBody f arguments m = .ok completion m') : Advances m m' := by
  have run : initializing.Survives ⟨m, .none⟩ ((watcher n).runBody none f arguments) _ _ :=
    initializingInductive.runBody (evaluatorUpheld n) proper equipped (fun _ _ => trivial) count
  obtain ⟨s', rfl, moves, _⟩ := run.ended ran
  exact moves

theorem initializes {f : Function} {x : InstanceId} (proper : m.heap.Proper) (spared : "this" ∉ f.decl.words)
    (marked : f.isInitializer = true) (bound : m.heap.frames.get? f.closure "this" = some (.instanceObject x))
    (count : arguments.length = f.decl.params.length) : Initializes f x arguments line m := by
  have found : ∀ n completion m', (evaluator n).runBody f arguments m = .ok completion m' →
      f.receiver line m' = .ok (.instanceObject x) m' := by
    intro n completion m' ran
    have still := (bodyAdvances proper ⟨spared, fun _ => ⟨x, bound⟩⟩ count ran).lasts.receivers bound
    simp [Function.receiver, Frames.getAt, Frames.ancestor?, still, Run.ofExcept]
  refine ⟨count, found, ?_⟩
  intro n
  rw [invokeBody]
  cases ran : (evaluator n).runBody f arguments m with
  | error halt m' => rw [afterError ran, afterError ran]
  | ok completion m' =>
    rw [afterOk ran, afterOk ran]
    unfold Function.result
    rw [if_pos marked]
    exact found n completion m' ran

theorem initKept (m : Machine) (i : Instance) (cls : ClassId) :
    (m.addInstance i).heap.findMethod? cls "init" = m.heap.findMethod? cls "init" := by
  have same : (m.addInstance i).heap.classes = m.heap.classes := rfl
  exact Heap.findAlongClasses same Class.methods "init" _ cls

theorem constructBare (r : Evaluator) {cls : ClassId} (missing : m.heap.findMethod? cls "init" = none) :
    r.construct cls arguments line m =
      .ok (.instanceObject ⟨m.heap.instances.size⟩) (m.addInstance ⟨cls, .empty⟩) := by
  have made : Run.newInstance cls m = .ok ⟨m.heap.instances.size⟩ (m.addInstance ⟨cls, .empty⟩) := rfl
  have looked : Run.findMethod? cls "init" (m.addInstance ⟨cls, .empty⟩) = .ok none (m.addInstance ⟨cls, .empty⟩) := by
    rw [← missing, ← initKept m ⟨cls, .empty⟩ cls]
    rfl
  exact (afterOk made).trans (afterOk looked)

theorem constructBound (r : Evaluator) {cls : ClassId} {f bound : Function} {before : Machine}
    (found : m.heap.findMethod? cls "init" = some f)
    (binds : f.bind ⟨m.heap.instances.size⟩ (m.addInstance ⟨cls, .empty⟩) = .ok bound before) :
    r.construct cls arguments line m =
      (do let _ ← r.invoke bound arguments line; return Value.instanceObject ⟨m.heap.instances.size⟩) before := by
  have made : Run.newInstance cls m = .ok ⟨m.heap.instances.size⟩ (m.addInstance ⟨cls, .empty⟩) := rfl
  have looked : Run.findMethod? cls "init" (m.addInstance ⟨cls, .empty⟩) =
      .ok (some f) (m.addInstance ⟨cls, .empty⟩) := by
    rw [← found, ← initKept m ⟨cls, .empty⟩ cls]
    rfl
  exact (afterOk made).trans ((afterOk looked).trans (afterOk binds))

theorem constructs {cls : ClassId} (proper : m.heap.Proper)
    (admitted : arguments.length = m.heap.arity (.construct cls)) : Constructs cls arguments line m := by
  have made := Advances.addInstance proper ⟨cls, .empty⟩
  have fresh : m.heap.instance? ⟨m.heap.instances.size⟩ = none := by simp [Heap.instance?]
  have born : (m.addInstance ⟨cls, .empty⟩).heap.instance? ⟨m.heap.instances.size⟩ = some ⟨cls, .empty⟩ :=
    Array.getElem?_push_size
  cases found : m.heap.findMethod? cls "init" with
  | none =>
    refine ⟨fun f other => ?_, fun n => .inl ?_⟩
    · cases found.symm.trans other
    · exact ⟨_, _, _, constructBare (evaluator n) found, fresh, born, rfl⟩
  | some f =>
    obtain ⟨spared, marked⟩ := proper.found found
    have b := bindEnds made.proper f ⟨m.heap.instances.size⟩
    have equipped := b.equipped spared
    have count : arguments.length = f.decl.params.length := by
      simp only [Heap.arity, found] at admitted
      exact admitted
    have init : Initializes _ ⟨m.heap.instances.size⟩ arguments line _ :=
      initializes b.moves.proper equipped.spared (b.mark.trans marked) b.receiver count
    constructor
    · intro other same
      cases found.symm.trans same
      exact ⟨_, _, b.runs, init⟩
    · intro n
      have whole : (evaluator n).start (.construct cls) arguments line m = _ :=
        constructBound (evaluator n) found b.runs
      cases ran : (evaluator n).runBody _ arguments _ with
      | error halt m' =>
        have invoked := (init.comes n).trans (afterError ran)
        exact .inr ⟨f, _, _, halt, m', found, b.runs, ran, whole.trans (afterError invoked)⟩
      | ok completion m' =>
        have invoked := (init.comes n).trans (afterOk ran)
        have moves := b.moves.trans (bodyAdvances b.moves.proper equipped count ran)
        obtain ⟨i, there, same⟩ := moves.lasts.instances born
        exact .inl ⟨_, i, m', whole.trans (afterOk invoked), fresh, there, same⟩

theorem initAccessed {x : InstanceId} {nameLine : Nat} {value : Value} {m' : Machine} (proper : m.heap.Proper)
    (fieldless : (m.heap.instance? x).bind (·.fields.find? "init") = none)
    (accessed : Run.property (.instanceObject x) ⟨"init", nameLine⟩ m = .ok value m') :
    ∃ f, m'.heap.callee? value = some (.callable (.function f)) ∧ m'.heap.Proper ∧ "this" ∉ f.decl.words ∧
      f.isInitializer = true ∧ m'.heap.frames.get? f.closure "this" = some (.instanceObject x) := by
  unfold Run.property Run.instanceProperty at accessed
  cases there : m.heap.instance? x with
  | none => simp [there, Run.fault] at accessed
  | some i =>
    have absent : i.fields.find? "init" = none := by simpa [there] using fieldless
    cases found : m.heap.findMethod? i.cls "init" with
    | none => simp [there, absent, found, Run.fault] at accessed
    | some method =>
      simp only [there, absent, found] at accessed
      obtain ⟨spared, marked⟩ := proper.found found
      have b := bindEnds proper method x
      have equipped := b.equipped spared
      have made := (afterOk b.runs).symm.trans accessed
      cases made
      refine ⟨_, ?_, (Advances.addFunction b.moves.proper equipped).proper, equipped.spared,
        b.mark.trans marked, b.receiver⟩
      exact congrArg (Option.map Callee.callable) Array.getElem?_push_size

theorem accessCalled {n : Nat} {object : Expr} {name : Ident} {arguments : List Expr} {line : Nat} {value : Value}
    {m' : Machine} (ends : (evaluator n).eval (.call (.get object name) arguments line) m = .ok value m') :
    ∃ k holder before callee after target values m₁, (evaluator k).eval object m = .ok holder before ∧
      Run.property holder name before = .ok callee after ∧ after.heap.callee? callee = some target ∧
      (evaluator (k + 1)).evalAll arguments after = .ok values m₁ ∧
      (evaluator (k + 1)).call target values line m₁ = .ok value m' := by
  cases n with
  | zero => cases ends
  | succ n =>
    obtain ⟨callee, after, accessed, rest⟩ := okParts ends
    cases n with
    | zero => cases accessed
    | succ k =>
      obtain ⟨holder, before, evaluated, property⟩ := okParts accessed
      have looked : Run.callee? callee after = .ok (after.heap.callee? callee) after := rfl
      have rest := (afterOk looked).symm.trans rest
      cases found : after.heap.callee? callee with
      | none =>
        rw [found] at rest
        cases rest
      | some target =>
        rw [found] at rest
        obtain ⟨values, m₁, listed, called⟩ := okParts rest
        exact ⟨k, holder, before, callee, after, target, values, m₁, evaluated, property, found, listed, called⟩

theorem initReturns {object : Expr} {arguments : List Expr} {line nameLine : Nat} (proper : m.heap.Proper)
    (spared : "this" ∉ (Expr.call (.get object ⟨"init", nameLine⟩) arguments line).words) :
    InitReturns object arguments line nameLine m := by
  intro n x before ran fieldless n' value m' ends
  obtain ⟨k, holder, before', callee, after, target, values, m₁, evaluated, accessed, found, listed, called⟩ :=
    accessCalled ends
  obtain ⟨rfl, rfl⟩ := evalUnique ran evaluated
  have sparedObject : "this" ∉ object.words := fun member => spared (List.mem_append_left _ member)
  have run : initializing.Survives ⟨m, .none⟩ ((watcher n).eval none object) _ _ :=
    (evaluatorUpheld n).eval proper sparedObject
  obtain ⟨_, rfl, moves, _⟩ := run.ended ran
  obtain ⟨f, same, proper', spared', marked, receiver⟩ := initAccessed moves.proper fieldless accessed
  cases found.symm.trans same
  have sparedArguments : "this" ∉ Expr.wordsAll arguments := fun member => spared (List.mem_append_right _ member)
  have run' : initializing.Survives ⟨after, .none⟩ ((watcher (k + 1)).evalFrom none 0 arguments) _ _ :=
    initializingInductive.evalFrom (evaluatorUpheld (k + 1)) proper' fun _ e found member =>
      sparedArguments (Expr.wordsMember (List.mem_of_getElem? found) member)
  obtain ⟨s₁, rfl, moves', _⟩ := run'.ended listed
  obtain ⟨enough, m₂, invoked⟩ := admittedOk called
  have init : Initializes f x values line { s₁.machine with callDepth := s₁.machine.callDepth + 1 } :=
    initializes moves'.proper spared' marked (moves'.lasts.receivers receiver) enough
  obtain ⟨_, _, _, returned⟩ := okParts ((init.comes k).symm.trans invoked)
  cases returned
  rfl

end Calls

section Sessions
variable {limit : Nat} {m m' : Machine}

/- What a host may ask for in a session: to run programs that come from texts, resolved or as they are, to evaluate
expressions and define globals where `this` is no name, and to call whatever it likes. -/
def Request.Sourced : Request → Prop
  | .interpret program => ∃ source, Source.program source = .ok program
  | .execute program => ∃ source, Source.program source = .ok program
  | .evaluate e => "this" ∉ e.words
  | .call _ _ _ => True
  | .define name _ => name ≠ "this"

theorem programSpared {source : String} {program : Program} (read : Source.program source = .ok program) :
    "this" ∉ Stmt.wordsAll program ∧ "this" ∉ Stmt.wordsAll program.resolve.1 := by
  have proper := sourceProper read
  have resolved : "this" ∉ Stmt.wordsAll program.resolve.1 := Stmt.sparesThisAll program .outermost proper
  have same : Stmt.wordsAll program = Stmt.wordsAll program.resolve.1 :=
    calc Stmt.wordsAll program = Stmt.wordsAll (Stmt.clearedAll program.resolve.1) :=
          congrArg Stmt.wordsAll (Stmt.clearedResolvedAll program .outermost proper).symm
      _ = Stmt.wordsAll program.resolve.1 := Stmt.wordsClearedAll program.resolve.1
  exact ⟨same ▸ resolved, resolved⟩

theorem sourcedAsks {s : Observed} {request : Request} (proper : s.machine.heap.Proper) (sourced : request.Sourced) :
    initializing.Asks s request := by
  cases request with
  | interpret program =>
    obtain ⟨source, read⟩ := sourced
    exact ⟨_, Invariant.sparingSequence none, (programSpared read).2⟩
  | execute program =>
    obtain ⟨source, read⟩ := sourced
    exact ⟨_, Invariant.sparingSequence none, (programSpared read).1⟩
  | evaluate e => exact sourced
  | call callee arguments line => exact ⟨fun _ found => proper.callee found, fun _ _ => trivial⟩
  | define name value => exact .defineOther proper sourced value

theorem serveProper {request : Request} (sourced : request.Sourced) (served : m.serve limit request = some m')
    (proper : m.heap.Proper) : m'.heap.Proper := by
  have holds : initializing.Holds ⟨m, .none⟩ := proper
  have run := initializingInductive.request (evaluatorUpheld limit) holds (sourcedAsks proper sourced)
  rw [serveRuns] at served
  obtain ⟨⟨outcome, after⟩, ends, rfl⟩ := Option.map_eq_some_iff.mp served
  obtain ⟨s', rfl, moves, _⟩ := run.finish ends
  exact moves.proper

theorem sessionProper {requests : List Request} (sourced : ∀ request ∈ requests, request.Sourced)
    (served : requests.foldlM (Machine.serve limit) m = some m') (proper : m.heap.Proper) : m'.heap.Proper := by
  induction requests generalizing m with
  | nil =>
    cases served
    exact proper
  | cons request requests ih =>
    obtain ⟨first, others⟩ := List.forall_mem_cons.mp sourced
    rw [List.foldlM_cons] at served
    obtain ⟨after, now, later⟩ := Option.bind_eq_some_iff.mp served
    exact ih others later (serveProper first now proper)

theorem freshProper (fresh : m.Fresh) : m.heap.Proper :=
  ⟨fun id f found => absurd found (fresh.functions id f), fun id c found => absurd found (fresh.classes id c)⟩

end Sessions

/- In a session on a fresh machine, whatever was run before, each call of a class that the checks let through makes an
instance of just that class or fails in the body of the initializer; each call of an initializer, bound to an instance,
comes to that instance or fails in its body, where `this` never goes missing; and so does calling `init` on an instance
with no such field. Unstopped, an observed run is what serving the request does. -/
theorem constructionYieldsInstance (limit : Nat) {m m' : Machine} (fresh : m.Fresh) {requests : List Request}
    (sourced : ∀ request ∈ requests, request.Sourced) (served : requests.foldlM (Machine.serve limit) m = some m')
    {next : Request} (last : next.Sourced) :
    m'.serve limit next = ((next.run (observed (fun _ => none) limit 0)).finish m').map Prod.snd ∧
    ∀ i, Happens (fun o => next.run (observed o limit 0)) m' i → i.phase = .begins →
      (∀ cls arguments line, i.activity = .body (.construct cls) arguments line →
        Constructs cls arguments line i.machine) ∧
      (∀ f arguments line, i.activity = .body (.callable (.function f)) arguments line → f.isInitializer = true →
        ∃ x, i.machine.heap.frames.get? f.closure "this" = some (.instanceObject x) ∧
          Initializes f x arguments line i.machine) ∧
      ∀ object nameLine arguments line,
        i.activity = .eval (.call (.get object ⟨"init", nameLine⟩) arguments line) →
          InitReturns object arguments line nameLine i.machine := by
  have proper := sessionProper sourced served (freshProper fresh)
  have holds : initializing.Holds ⟨m', .none⟩ := proper
  have asks := sourcedAsks holds last
  have plain := (initializingInductive.request (evaluatorUpheld limit) holds asks).1
  have same : ∀ o : Observer, o.Lenient → next.run (observed o limit 0) m' = next.run (evaluator limit) m' :=
    fun o lenient => (initializingInductive.request (observedUpheld lenient limit 0) holds asks).1.symm.trans plain
  constructor
  · rw [serveRuns]
    unfold Run.finish
    rw [same _ fun _ _ => rfl]
  · intro i happens begins
    have tidy : i.Proper := happens.holds same
    refine ⟨?_, ?_, ?_⟩
    · intro cls arguments line activity
      exact constructs tidy.heap (tidy.admitted begins _ _ _ activity)
    · intro f arguments line activity marked
      have equipped : i.machine.heap.Equipped f := by
        have fits := tidy.fits
        rwa [activity] at fits
      obtain ⟨x, bound⟩ := equipped.receiver marked
      exact ⟨x, bound, initializes tidy.heap equipped.spared marked bound (tidy.admitted begins _ _ _ activity)⟩
    · intro object nameLine arguments line activity
      have spared := tidy.fits
      rw [activity] at spared
      exact initReturns tidy.heap spared

/- An initializer that calls itself once on its instance, returns early from that call and overwrites a field; the class
that is called inherits it. -/
def againText : String :=
  "class A \x7b init(x) \x7b this.a = x; if (x) return; this.init(true); this.a = nil; \x7d \x7d class B < A \x7b \x7d"

def againProgram : Program :=
  [.classDecl ⟨⟨"A", 1⟩, none,
      [⟨some ⟨"init", 1⟩, [⟨"x", 1⟩],
        [.expression (.set (.this ⟨"this", 1⟩ none) ⟨"a", 1⟩ (.var ⟨"x", 1⟩ none)),
          .ifElse (.var ⟨"x", 1⟩ none) (.returnStmt ⟨"return", 1⟩ none) none,
          .expression (.call (.get (.this ⟨"this", 1⟩ none) ⟨"init", 1⟩) [.literal (.bool true) 1] 1),
          .expression (.set (.this ⟨"this", 1⟩ none) ⟨"a", 1⟩ (.literal .nil 1))], 1⟩], []⟩,
    .classDecl ⟨⟨"B", 1⟩, some (.var ⟨"A", 1⟩ none), [], []⟩]

theorem againParsed : Source.program againText = .ok againProgram := readAs (by decide +kernel)

def againSession : List Request := [.interpret againProgram]

theorem againReady : (againSession.foldlM (Machine.serve 20) (Machine.initial 0)).map (fun m =>
    (m.heap.arity (.construct ⟨1⟩), m.callDepth, (((evaluator 19).start (.construct ⟨1⟩) [.bool false] 1).finish
      { m with callDepth := m.callDepth + 1 }).map (·.1.isOk))) = some (1, 0, some true) := by decide +kernel

theorem againConstructed : (Machine.initial 0).Fresh ∧ Source.program againText = .ok againProgram ∧
    ∃ m m' x i, againSession.foldlM (Machine.serve 20) (Machine.initial 0) = some m ∧
      Happens (fun o => (Request.call (.classObject ⟨1⟩) [.bool false] 1).run (observed o 20 0)) m
        ⟨1, .body (.construct ⟨1⟩) [.bool false] 1, .begins, { m with callDepth := m.callDepth + 1 }⟩ ∧
      (evaluator 19).start (.construct ⟨1⟩) [.bool false] 1 { m with callDepth := m.callDepth + 1 } =
        .ok (.instanceObject x) m' ∧ m'.heap.instance? x = some i ∧ i.cls = ⟨1⟩ := by
  obtain ⟨m, served, facts⟩ := Option.map_eq_some_iff.mp againReady
  obtain ⟨arity, facts⟩ := Prod.mk.inj facts
  obtain ⟨depth, ended⟩ := Prod.mk.inj facts
  have sourced : ∀ request ∈ againSession, request.Sourced := List.forall_mem_singleton.mpr ⟨againText, againParsed⟩
  have room : m.callDepth < maxCallDepth := by
    rw [depth]
    decide
  have begun : Happens (fun o => (observed o 20 0).call (.construct ⟨1⟩) [.bool false] 1) m
      ⟨1, .body (.construct ⟨1⟩) [.bool false] 1, .begins, { m with callDepth := m.callDepth + 1 }⟩ :=
    bodyBegins arity.symm room
  have happens : Happens (fun o => (Request.call (.classObject ⟨1⟩) [.bool false] 1).run (observed o 20 0)) m
      ⟨1, .body (.construct ⟨1⟩) [.bool false] 1, .begins, { m with callDepth := m.callDepth + 1 }⟩ := by
    intro o halt stops passes
    obtain ⟨m', stopped⟩ := begun o halt stops passes
    have looked : Run.callee? (.classObject ⟨1⟩) m = .ok (some (.construct ⟨1⟩)) m := rfl
    exact ⟨m', (afterOk looked).trans (afterError stopped)⟩
  have host : (Request.call (.classObject ⟨1⟩) [.bool false] 1).Sourced := trivial
  have all := (constructionYieldsInstance 20 (Machine.initialFresh 0) sourced served host).2 _ happens rfl
  obtain ⟨x, i, m', made, _, there, same⟩ | ⟨_, _, _, halt, m', _, _, _, failed⟩ := (all.1 _ _ _ rfl).ends 19
  · exact ⟨Machine.initialFresh 0, againParsed, m, m', x, i, served, happens, made, there, same⟩
  · -- the run was seen to end well
    unfold Run.finish at ended
    rw [failed] at ended
    cases halt <;> cases ended

end Treewalk
