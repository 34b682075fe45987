import Treewalk.Proofs.Invariant
import Treewalk.Proofs.Restored

/-! Runs under an invariant. What a rule does with its parts is gone through once, one case for each kind of node, for
whatever invariant is inductive; the whole of a run follows by induction on its limit. -/
namespace Treewalk

def Evaluator.runBody (r : Evaluator) (f : Function) (arguments : List Value) : Run Completion := do
  let frame ← Run.newFrame f.closure
  Run.bindParameters frame f.decl.params arguments
  Run.inNewFrame frame (r.execAll f.decl.body)

def Watcher.runBody (w : Watcher) (origin : Option Address) (f : Function) (arguments : List Value) :
    Watch Completion := do
  let frame ← Watch.newFrame f.closure (siteOf origin .parameters)
  Watch.lift (Run.bindParameters frame f.decl.params arguments)
  Watch.inNewFrame frame (siteOf origin .body) (w.execFrom origin 0 f.decl.body)

def Function.result (f : Function) (line : Nat) (completion : Completion) : Run Value :=
  if f.isInitializer then f.receiver line
  else match completion with
    | .returned value => return value
    | .normal => return .nil

theorem invokeBody (r : Evaluator) (f : Function) (arguments : List Value) (line : Nat) :
    r.invoke f arguments line = r.runBody f arguments >>= f.result line := by
  simp only [Evaluator.invoke, Evaluator.runBody, bind_assoc]
  rfl

theorem watchBody (w : Watcher) (origin : Option Address) (f : Function) (arguments : List Value) (line : Nat) :
    w.invoke origin f arguments line =
      w.runBody origin f arguments >>= fun completion => Watch.lift (f.result line completion) := by
  simp only [Watcher.invoke, Watcher.runBody, bind_assoc]
  refine congrArg _ (funext fun frame => congrArg _ (funext fun _ => congrArg _ (funext fun completion => ?_)))
  unfold Function.result
  split
  · rfl
  · cases completion <;> rfl

theorem Heap.findAlongClasses {h h' : Heap} (same : h'.classes = h.classes) (table : Class → Table Function)
    (name : String) (more : Nat) (id : ClassId) :
    h'.findAlong table name more id = h.findAlong table name more id := by
  induction more generalizing id with
  | zero => rfl
  | succ more ih => simp only [Heap.findAlong, Heap.class?, same, ih]

theorem unaryPlain {op : UnaryOp} {right value : Value} {line : Nat} (done : op.apply right line = .ok value) :
    value.node? = none := by
  unfold UnaryOp.apply at done
  split at done <;> cases done <;> rfl

theorem onNumbersPlain (op : BinaryOp) (a b : Float) : (op.onNumbers a b).node? = none := by
  cases op <;> rfl

theorem binaryPlain {op : BinaryOp} {left right value : Value} {line : Nat}
    (done : op.apply left right line = .ok value) : value.node? = none := by
  unfold BinaryOp.apply at done
  split at done <;> cases done
  · rfl
  · rfl
  · rfl
  · exact onNumbersPlain _ _ _

theorem literalPlain (value : Literal) : value.toValue.node? = none := by
  cases value <;> rfl

namespace Invariant
variable {I : Invariant}

structure Done (I : Invariant) (s : Observed) (address : Option Address) (completion : Completion) : Prop where
  passed : completion = .normal → I.Passed s address
  returned : ∀ value, completion = .returned value → I.Sees s value

theorem Done.normal {s : Observed} {address : Option Address} (passed : I.Passed s address) : I.Done s address .normal :=
  ⟨fun _ => passed, by simp⟩

theorem Done.returning {s : Observed} {address : Option Address} {value : Value} (seen : I.Sees s value) :
    I.Done s address (.returned value) :=
  ⟨by simp, by simpa using seen⟩

structure Upheld (I : Invariant) (w : Watcher) (r : Evaluator) : Prop where
  eval : ∀ {s address e}, I.Holds s → I.Node s address (.expr e) →
    I.Survives s (w.eval address e) (r.eval e) (fun value s' => I.Sees s' value)
  exec : ∀ {s address st}, I.Holds s → I.Node s address (.stmt st) →
    I.Survives s (w.exec address st) (r.exec st) (fun completion s' => I.Done s' address completion)
  call : ∀ {s origin callee arguments} line, I.Holds s → I.Calls s origin callee → (∀ a ∈ arguments, I.Sees s a) →
    I.Survives s (w.call origin callee arguments line) (r.call callee arguments line) (fun value s' => I.Sees s' value)

namespace Inductive
variable (h : I.Inductive) {s : Observed}
include h

theorem normally {address : Option Address} {st : Stmt} {s' : Observed} (here : I.Node s address (.stmt st))
    (moves : I.Moves s s') (plain : ¬ st.Declaring) : I.Done s' address .normal :=
  .normal (h.passed here moves plain)

theorem allSeen {s' : Observed} {values : List Value} (seen : ∀ v ∈ values, I.Sees s v) (moves : I.Moves s s') :
    ∀ v ∈ values, I.Sees s' v :=
  fun v member => h.sees (seen v member) moves

theorem inNewFrame {parent : FrameId} {site : Option Site} {w : Watch α} {r : Run α} {mid post : α → Observed → Prop}
    (moves : I.Moves s (s.addFrame parent site))
    (inner : I.Holds ((s.addFrame parent site).within s.frames.nextId) →
      I.Survives ((s.addFrame parent site).within s.frames.nextId) w r mid)
    (after : ∀ a s', mid a s' → post a (s'.within s.machine.environment)) :
    I.Survives s (Watch.inNewFrame parent site w) (Run.inNewFrame parent r) post := by
  have holds : I.Holds ((s.addFrame parent site).within s.frames.nextId) :=
    h.holdsElsewhere ⟨rfl, rfl, rfl⟩ (h.holds moves)
  exact h.step rfl rfl moves (h.within (inner holds) after)

theorem property {value : Value} {name : Ident} (holds : I.Holds s) (seen : I.Sees s value)
    (binds : ∀ id, value = .instanceObject id → I.Binds s id name.name) :
    I.Survives s (Watch.property value name) (Run.property value name) (fun found s' => I.Sees s' found) := by
  have missing : I.Survives s (Watch.lift (Run.fault name.line (.undefinedProperty name.name)))
      (Run.fault name.line (.undefinedProperty name.name)) (fun found s' => I.Sees s' found) := h.fault holds _ _
  cases value with
  | instanceObject id =>
    change I.Survives s (Watch.instanceProperty id name) (Run.instanceProperty id name) _
    cases there : s.machine.heap.instance? id with
    | none =>
      refine .congr _ ?_ ?_ missing
      · simp only [Watch.instanceProperty, there]
      · simp only [Run.instanceProperty, there]
    | some i =>
      cases field : i.fields.find? name.name with
      | some value =>
        refine .done ?_ ?_ (h.refl holds) (h.field holds seen there field)
        · simp only [Watch.instanceProperty, there, field]
        · simp only [Run.instanceProperty, there, field]
      | none =>
        cases found : s.machine.heap.findMethod? i.cls name.name with
        | none =>
          refine .congr _ ?_ ?_ missing
          · simp only [Watch.instanceProperty, there, field, found]
          · simp only [Run.instanceProperty, there, field, found]
        | some method =>
          obtain ⟨bound, calls⟩ := h.bound holds seen (binds id rfl) there field found
          obtain ⟨made, seen'⟩ := h.functionMade (h.holds bound) calls
          refine .done ?_ ?_ (h.trans bound made) seen'
          · simp only [Watch.instanceProperty, there, field, found]
            rfl
          · simp only [Run.instanceProperty, there, field, found]
            rfl
  | classObject id =>
    change I.Survives s (Watch.classProperty id name) (Run.classProperty id name) _
    cases found : s.machine.heap.findClassMethod? id name.name with
    | none =>
      refine .congr _ ?_ ?_ missing
      · simp only [Watch.classProperty, found]
      · simp only [Run.classProperty, found]
    | some method =>
      obtain ⟨made, seen'⟩ := h.functionMade holds (h.classMethod holds seen found)
      refine .done ?_ ?_ made seen'
      · simp only [Watch.classProperty, found]
        rfl
      · simp only [Run.classProperty, found]
        rfl
  | _ => exact h.fault holds name.line (.noProperties _)

theorem bindParameters {start : Observed} {origin : Option Address} {f : Function} {params : List Ident}
    {arguments : List Value} (holds : I.Holds start) (calls : I.Calls start origin (.callable (.function f)))
    (moves : I.Moves (start.addFrame f.closure (siteOf origin .parameters)) s)
    (there : ∃ frame, s.frames.frame? start.frames.nextId = some frame) (inside : ∀ p ∈ params, p ∈ f.decl.params)
    (given : ∀ a ∈ arguments, I.Sees s a) (enough : arguments.length = params.length) :
    I.Survives s (Watch.lift (Run.bindParameters start.frames.nextId params arguments))
      (Run.bindParameters start.frames.nextId params arguments) (fun _ s' => ∀ name,
        name ∈ params.map Ident.name ∨ s.frames.contains start.frames.nextId name = true →
        s'.frames.contains start.frames.nextId name = true) := by
  induction params generalizing s arguments with
  | nil => exact .done rfl rfl (h.refl (h.holds moves)) fun name bound => bound.resolve_left List.not_mem_nil
  | cons param params ih =>
    cases arguments with
    | nil => cases enough
    | cons argument arguments =>
      obtain ⟨first, others⟩ := List.forall_mem_cons.mp given
      obtain ⟨member, inside'⟩ := List.forall_mem_cons.mp inside
      obtain ⟨frame, found⟩ := there
      have bound := h.parameterBound holds calls moves member first
      have now : (s.define start.frames.nextId param.name argument).frames.frame? start.frames.nextId =
          some { frame with bindings := frame.bindings.insert param.name argument } := by
        refine (Frames.frameDefine s.frames _ _ param.name argument).trans ?_
        rw [if_pos rfl, found]
        rfl
      rw [Run.bindParameters, Watch.liftBind]
      refine h.step rfl rfl bound ?_
      refine (ih (h.trans moves bound) ⟨_, now⟩ inside' (h.allSeen others bound) (Nat.succ.inj enough)).mono ?_
      intro _ s' _ kept name known
      have defined := Frames.definedContains found param.name name argument
      apply kept name
      rw [List.map_cons, List.mem_cons, or_assoc] at known
      rcases known with same | known | before
      · exact .inr (defined.trans (by rw [beq_iff_eq.mpr same, Bool.true_or]))
      · exact .inl known
      · have before : s.frames.contains start.frames.nextId name = true := before
        exact .inr (defined.trans (by rw [before, Bool.or_true]))

theorem admitted {w : Watcher} {body : Run Value} {origin : Option Address} {callee : Callee} {arguments : List Value}
    (line : Nat) (holds : I.Holds s) (inner : arguments.length = s.machine.heap.arity callee →
      I.Survives s.deeper (w.start origin callee arguments line) body (fun value s' => I.Sees s' value)) :
    I.Survives s (w.callRule origin callee arguments line) (Run.admitted callee arguments line body)
      (fun value s' => I.Sees s' value) := by
  by_cases enough : arguments.length = s.machine.heap.arity callee
  · by_cases deep : s.machine.callDepth ≥ maxCallDepth
    · refine .congr _ ?_ ?_ (h.fault holds line (.stackOverflow maxCallDepth))
      · simp only [Watcher.callRule, enough, deep, ne_eq, not_true_eq_false, if_false, if_true]
      · simp only [Run.admitted, enough, deep, ne_eq, not_true_eq_false, if_false, if_true]
    · have counted : I.Survives s (Watch.counted (w.start origin callee arguments line)) (Run.counted body)
          (fun value s' => I.Sees s' value) :=
        h.counted (inner enough) fun value s' seen => h.seesElsewhere ⟨rfl, rfl, rfl⟩ seen
      refine .congr _ ?_ ?_ counted
      · simp only [Watcher.callRule, enough, deep, ne_eq, not_true_eq_false, if_false]
      · simp only [Run.admitted, enough, deep, ne_eq, not_true_eq_false, if_false]
  · refine .congr _ ?_ ?_ (h.fault holds line (.arityMismatch (s.machine.heap.arity callee) arguments.length))
    · simp only [Watcher.callRule, enough, ne_eq, not_false_eq_true, if_true]
    · simp only [Run.admitted, enough, ne_eq, not_false_eq_true, if_true]

section Rules
variable {n : Nat} {r : Evaluator} (u : I.Upheld (watcher n) r) {address : Option Address}
include u

theorem evalFrom {index : Nat} {es : List Expr} (holds : I.Holds s)
    (here : ∀ i e, es[i]? = some e → I.Node s (within? address (.item (index + i))) (.expr e)) :
    I.Survives s ((watcher n).evalFrom address index es) (r.evalAll es)
      (fun values s' => ∀ v ∈ values, I.Sees s' v) := by
  induction es generalizing s index with
  | nil => exact h.pure holds (List.forall_mem_nil _)
  | cons first rest ih =>
    apply h.bind (u.eval holds (here 0 first rfl))
    intro value s' _ moves seen
    have others : ∀ i e, rest[i]? = some e → I.Node s' (within? address (.item (index + 1 + i))) (.expr e) := by
      intro i e found
      have next := h.node (here (i + 1) e found) moves
      rwa [Nat.add_comm i 1, ← Nat.add_assoc] at next
    apply h.bind (ih (h.holds moves) others)
    intro values s'' _ moves' seen'
    exact h.pure (h.holds moves') (List.forall_mem_cons.mpr ⟨h.sees seen moves', seen'⟩)

theorem execFrom {index : Nat} {body : List Stmt} (holds : I.Holds s) (here : I.Body s address index body) :
    I.Survives s ((watcher n).execFrom address index body) (r.execAll body)
      (fun completion s' => ∀ value, completion = .returned value → I.Sees s' value) := by
  induction body generalizing s index with
  | nil => exact h.pure holds (by simp)
  | cons first rest ih =>
    apply h.bind (u.exec holds (h.first here))
    intro completion s' _ moves done
    cases completion with
    | normal => exact ih (h.holds moves) (h.rest here moves (done.passed rfl))
    | returned value => exact h.pure (h.holds moves) done.returned

theorem runBody {origin : Option Address} {f : Function} {arguments : List Value} (holds : I.Holds s)
    (calls : I.Calls s origin (.callable (.function f))) (given : ∀ a ∈ arguments, I.Sees s a)
    (enough : arguments.length = f.decl.params.length) :
    I.Survives s ((watcher n).runBody origin f arguments) (r.runBody f arguments)
      (fun completion s' => ∀ value, completion = .returned value → I.Sees s' value) := by
  have opened := h.functionOpened holds calls
  have there : (s.addFrame f.closure (siteOf origin .parameters)).frames.frame? s.frames.nextId =
      some ⟨some f.closure, .empty⟩ := (Frames.frameAdd s.frames _ _).trans (if_pos rfl)
  refine h.step rfl rfl opened ?_
  apply h.bind (h.bindParameters holds calls (h.refl (h.holds opened)) ⟨_, there⟩ (fun _ member => member)
    (h.allSeen given opened) enough)
  intro _ s' _ moves bound
  have all : ∀ param ∈ f.decl.params, s'.frames.contains s.frames.nextId param.name = true :=
    fun param member => bound _ (.inl (List.mem_map_of_mem member))
  obtain ⟨framed, body⟩ := h.bodyOpened holds calls moves all rfl
  refine h.inNewFrame framed (fun holds' => h.execFrom u holds' body) ?_
  intro completion s'' seen value same
  exact h.seesElsewhere ⟨rfl, rfl, rfl⟩ (seen value same)

theorem invoke {origin : Option Address} {f : Function} {arguments : List Value} (holds : I.Holds s)
    (calls : I.Calls s origin (.callable (.function f))) (given : ∀ a ∈ arguments, I.Sees s a)
    (enough : arguments.length = f.decl.params.length) (line : Nat) :
    I.Survives s ((watcher n).invoke origin f arguments line) (r.invoke f arguments line)
      (fun value s' => I.Sees s' value) := by
  rw [watchBody, invokeBody]
  apply h.bind (h.runBody u holds calls given enough)
  intro completion s' _ moves returned
  unfold Function.result
  split
  · exact h.receiver (h.holds moves) calls moves line
  · cases completion with
    | returned value => exact .done rfl rfl (h.refl (h.holds moves)) (returned value rfl)
    | normal => exact .done rfl rfl (h.refl (h.holds moves)) (h.plain rfl)

theorem construct {origin : Option Address} {cls : ClassId} {arguments : List Value} (holds : I.Holds s)
    (calls : I.Calls s origin (.construct cls)) (given : ∀ a ∈ arguments, I.Sees s a)
    (enough : arguments.length = s.machine.heap.arity (.construct cls)) (line : Nat) :
    I.Survives s ((watcher n).construct cls arguments line) (r.construct cls arguments line)
      (fun value s' => I.Sees s' value) := by
  obtain ⟨made, seen, binds⟩ := h.instanceMade holds calls rfl
  have holds' := h.holds made
  refine h.step rfl rfl made (Survives.silent rfl (h.step rfl rfl (h.refl holds') ?_))
  dsimp only
  cases found : (s.machine.addInstance ⟨cls, .empty⟩).heap.findMethod? cls "init" with
  | none => exact h.pure holds' seen
  | some initializer =>
    have there : (s.machine.addInstance ⟨cls, .empty⟩).heap.instance? ⟨s.machine.heap.instances.size⟩ =
        some ⟨cls, .empty⟩ := Array.getElem?_push_size
    have classes : s.machine.heap.classes = (s.machine.addInstance ⟨cls, .empty⟩).heap.classes := rfl
    have before : s.machine.heap.findMethod? cls "init" = some initializer :=
      (Heap.findAlongClasses classes Class.methods "init" _ cls).trans found
    have count : arguments.length = initializer.decl.params.length := by
      rw [enough]
      simp only [Heap.arity, before, FunctionDecl.arity]
    obtain ⟨bound, calls'⟩ := h.bound holds' seen binds there rfl found
    refine h.step rfl rfl bound ?_
    apply h.bind (h.invoke u (h.holds bound) calls' (h.allSeen given (h.trans made bound)) count line)
    intro _ s' _ moves _
    exact h.pure (h.holds moves) (h.sees seen (h.trans bound moves))

theorem start {origin : Option Address} {callee : Callee} {arguments : List Value} (holds : I.Holds s)
    (calls : I.Calls s origin callee) (given : ∀ a ∈ arguments, I.Sees s a)
    (enough : arguments.length = s.machine.heap.arity callee) (line : Nat) :
    I.Survives s ((watcher n).start origin callee arguments line) (r.start callee arguments line)
      (fun value s' => I.Sees s' value) := by
  rcases callee with (f | native) | cls
  · exact h.invoke u holds calls given enough line
  · exact h.callNative holds calls given line
  · exact h.construct u holds calls given enough line

theorem startInside (holds : I.Holds s) {origin : Option Address} {callee : Callee} (calls : I.Calls s origin callee)
    {arguments : List Value} (given : ∀ a ∈ arguments, I.Sees s a)
    (enough : arguments.length = s.machine.heap.arity callee) (line : Nat) :
    I.Survives s.deeper ((watcher n).start origin callee arguments line) (r.start callee arguments line)
      (fun value s' => I.Sees s' value) := by
  have away : Elsewhere s.machine { s.machine with callDepth := s.machine.callDepth + 1 } := ⟨rfl, rfl, rfl⟩
  exact h.start u (h.holdsElsewhere away holds) (h.callsElsewhere away calls)
    (fun a member => h.seesElsewhere away (given a member)) enough line

theorem callRule {origin : Option Address} {callee : Callee} {arguments : List Value} (line : Nat) (holds : I.Holds s)
    (calls : I.Calls s origin callee) (given : ∀ a ∈ arguments, I.Sees s a) :
    I.Survives s ((watcher n).callRule origin callee arguments line) (r.callRule callee arguments line)
      (fun value s' => I.Sees s' value) := by
  rw [callRuleAdmitted]
  exact h.admitted line holds fun enough => h.startInside u holds calls given enough line

theorem evalRule {e : Expr} (holds : I.Holds s) (noted : Noted s address (.expr e)) (here : I.Node s address (.expr e)) :
    I.Survives s ((watcher n).evalRule address e) (r.evalRule e) (fun value s' => I.Sees s' value) := by
  cases e with
  | literal value line => exact h.pure holds (h.plain (literalPlain value))
  | grouping inner => exact u.eval holds (h.item here trivial rfl)
  | unary op right line =>
    apply h.bind (u.eval holds (h.item here trivial rfl))
    intro value s' _ moves _
    exact h.ofExcept (h.holds moves) fun _ done => h.plain (unaryPlain done)
  | binary left op right line =>
    apply h.bind (u.eval holds (h.item here trivial rfl))
    intro leftValue s' _ moves _
    apply h.bind (u.eval (h.holds moves) (h.item (h.node here moves) trivial rfl))
    intro rightValue s'' _ moves' _
    exact h.ofExcept (h.holds moves') fun _ done => h.plain (binaryPlain done)
  | logical left op right line =>
    apply h.bind (u.eval holds (h.item here trivial rfl))
    intro leftValue s' _ moves seen
    split
    · exact h.pure (h.holds moves) seen
    · exact u.eval (h.holds moves) (h.item (h.node here moves) trivial rfl)
  | ternary condition thenBranch elseBranch line =>
    apply h.bind (u.eval holds (h.item here trivial rfl))
    intro value s' _ moves _
    split
    · exact u.eval (h.holds moves) (h.item (h.node here moves) trivial rfl)
    · exact u.eval (h.holds moves) (h.item (h.node here moves) trivial rfl)
  | var name depth =>
    refine h.recording holds here fun s' _ moves => ?_
    exact h.lookUp (h.holds moves) (h.node here moves) name depth
  | this keyword depth =>
    refine h.recording holds here fun s' _ moves => ?_
    exact h.lookUp (h.holds moves) (h.node here moves) keyword depth
  | assign name source depth =>
    apply h.bind (u.eval holds (h.item here trivial rfl))
    intro value s' _ moves seen
    refine h.recording (h.holds moves) (h.node here moves) fun s'' _ moves' => ?_
    have seen' := h.sees seen moves'
    apply h.bind (h.assign (h.holds moves') (h.node here (h.trans moves moves')) seen')
    intro _ s''' _ moves'' _
    exact h.pure (h.holds moves'') (h.sees seen' moves'')
  | call callee arguments line =>
    apply h.bind (u.eval holds (h.item here trivial rfl))
    intro value s' run moves seen
    refine h.step rfl rfl (h.refl (h.holds moves)) ?_
    cases found : s'.machine.heap.callee? value with
    | none => exact h.fault (h.holds moves) line .notCallable
    | some target =>
      obtain ⟨origin, known⟩ : ∃ origin, Watch.origin value s' = .ok origin s' := by cases value <;> exact ⟨_, rfl⟩
      have each : ∀ i e, arguments[i]? = some e → I.Node s' (within? address (.item (1 + i))) (.expr e) := by
        intro i e there
        have part : (Phrase.expr (.call callee arguments line)).items[1 + i]? = some (.expr e) := by
          rw [Nat.add_comm]
          simp [Phrase.items, Expr.parts, there]
        exact h.item (h.node here moves) trivial part
      refine Survives.silent known ?_
      apply h.bind (h.evalFrom u (h.holds moves) each)
      intro values s'' run' moves' given
      exact u.call line (h.holds moves') (h.called noted run moves seen found known run' moves') given
  | get object name =>
    apply h.bind (u.eval holds (h.item here trivial rfl))
    intro value s' run moves seen
    refine h.property (h.holds moves) seen ?_
    rintro id rfl
    exact h.accessed noted run moves
  | set object name source =>
    apply h.bind (u.eval holds (h.item here trivial rfl))
    intro target s' _ moves seen
    cases target with
    | instanceObject id =>
      apply h.bind (u.eval (h.holds moves) (h.item (h.node here moves) trivial rfl))
      intro value s'' _ moves' seen'
      have set := h.fieldSet name.name (h.holds moves') (h.sees seen moves') seen'
      exact h.step rfl rfl set (h.pure (h.holds set) (h.sees seen' set))
    | _ => exact h.fault (h.holds moves) name.line .noFields
  | lambda decl =>
    obtain ⟨made, seen⟩ := h.functionMade holds (h.lambda holds here)
    exact h.step rfl rfl (h.refl holds) (.done rfl rfl made seen)

theorem superclass {decl : ClassDecl} (holds : I.Holds s) (here : I.Node s address (.stmt (.classDecl decl))) :
    I.Survives s ((watcher n).superclass address decl.superclass) (r.superclass decl.superclass)
      (fun found s' => ∀ id, found = some id → I.Sees s' (.classObject id)) := by
  cases up : decl.superclass with
  | none => exact h.pure holds (by simp)
  | some e =>
    apply h.bind (u.eval holds (h.parent here up))
    intro value s' _ moves seen
    cases value with
    | classObject id =>
      refine h.pure (h.holds moves) ?_
      rintro _ ⟨⟩
      exact seen
    | _ => exact h.fault (h.holds moves) e.line (.superclassNotClass _)

theorem declareClass {decl : ClassDecl} (holds : I.Holds s) (noted : Noted s address (.stmt (.classDecl decl)))
    (here : I.Node s address (.stmt (.classDecl decl))) :
    I.Survives s ((watcher n).declareClass address decl) (r.declareClass decl) (fun _ s' => I.Passed s' address) := by
  apply h.bind (h.superclass u holds here)
  intro superclass s' run moves seen
  obtain ⟨declared, passed⟩ := h.classDeclared noted (h.node here moves) run moves seen rfl
  exact .done rfl rfl declared passed

theorem evalOption {value : Option Expr} (holds : I.Holds s) (here : ∀ e, value = some e → I.Node s address (.expr e)) :
    I.Survives s ((watcher n).evalOption address value) (r.evalOption value) (fun found s' => I.Sees s' found) := by
  cases value with
  | none => exact h.pure holds (h.plain rfl)
  | some e => exact u.eval holds (here e rfl)

theorem execRule {st : Stmt} (holds : I.Holds s) (noted : Noted s address (.stmt st))
    (here : I.Node s address (.stmt st)) :
    I.Survives s ((watcher n).execRule address st) (r.execRule st)
      (fun completion s' => I.Done s' address completion) := by
  cases st with
  | expression e =>
    apply h.bind (u.eval holds (h.item here nofun rfl))
    intro value s' _ moves _
    apply h.bind (h.setLast (h.holds moves) value)
    intro _ s'' _ moves' _
    exact h.pure (h.holds moves') (h.normally here (h.trans moves moves') id)
  | print e =>
    apply h.bind (u.eval holds (h.item here nofun rfl))
    intro value s' _ moves _
    apply h.bind (h.write (h.holds moves) value e.line)
    intro _ s'' _ moves' _
    exact h.pure (h.holds moves') (h.normally here (h.trans moves moves') id)
  | varDecl name initializer =>
    have source : ∀ e, initializer = some e → I.Node s (within? address .initializer) (.expr e) := by
      rintro e rfl
      exact h.initializer here
    apply h.bind (h.evalOption u holds source)
    intro value s' _ moves seen
    obtain ⟨defined, passed⟩ := h.variableDefined (h.holds moves) (h.node here moves) seen
    exact h.step rfl rfl defined (h.pure (h.holds defined) (.normal passed))
  | block body =>
    obtain ⟨opened, inside⟩ := h.blockOpened holds here rfl
    have run : I.Survives s (Watch.inNewFrame s.machine.environment (siteOf address .block)
        ((watcher n).execFrom address 0 body)) (Run.inNewFrame s.machine.environment (r.execAll body))
        (fun completion s' => ∀ value, completion = .returned value → I.Sees s' value) :=
      h.inNewFrame opened (fun holds' => h.execFrom u holds' inside) fun completion s' seen value same =>
        h.seesElsewhere ⟨rfl, rfl, rfl⟩ (seen value same)
    refine h.step rfl rfl (h.refl holds) (run.mono ?_)
    intro completion s' moves returned
    exact ⟨fun _ => h.passed here moves id, returned⟩
  | ifElse condition thenBranch elseBranch =>
    apply h.bind (u.eval holds (h.item here nofun (by cases elseBranch <;> rfl)))
    intro value s' _ moves _
    split
    · refine (u.exec (h.holds moves) (h.item (h.node here moves) nofun (by cases elseBranch <;> rfl))).mono ?_
      intro completion s'' moves' done
      exact ⟨fun _ => h.passed here (h.trans moves moves') id, done.returned⟩
    · cases elseBranch with
      | none => exact h.pure (h.holds moves) (h.normally here moves id)
      | some elseBranch =>
        refine (u.exec (h.holds moves) (h.item (h.node here moves) nofun rfl)).mono ?_
        intro completion s'' moves' done
        exact ⟨fun _ => h.passed here (h.trans moves moves') id, done.returned⟩
  | whileLoop condition body =>
    apply h.bind (u.eval holds (h.item here nofun rfl))
    intro test s' _ moves _
    split
    · apply h.bind (u.exec (h.holds moves) (h.item (h.node here moves) nofun rfl))
      intro completion s'' _ moves' done
      cases completion with
      | normal => exact u.exec (h.holds moves') (h.node here (h.trans moves moves'))
      | returned value => exact h.pure (h.holds moves') (.returning (done.returned value rfl))
    · exact h.pure (h.holds moves) (h.normally here moves id)
  | funDecl decl =>
    obtain ⟨declared, passed⟩ := h.functionDeclared holds here rfl
    exact .done rfl rfl declared (.normal passed)
  | classDecl decl =>
    apply h.bind (h.declareClass u holds noted here)
    intro _ s' _ moves passed
    exact h.pure (h.holds moves) (.normal passed)
  | returnStmt keyword value =>
    have source : ∀ e, value = some e → I.Node s (within? address (.item 0)) (.expr e) := by
      rintro e rfl
      exact h.item here nofun rfl
    apply h.bind (h.evalOption u holds source)
    intro found s' _ moves seen
    exact h.pure (h.holds moves) (.returning seen)

end Rules

theorem upTo (n : Nat) : I.Upheld (watcher n) (evaluator n) := by
  induction n with
  | zero => exact ⟨fun holds _ => h.exhausted holds, fun holds _ => h.exhausted holds, fun _ holds _ _ => h.exhausted holds⟩
  | succ n ih =>
    constructor
    · intro s address e holds here
      refine h.recording holds here fun s' same moves => ?_
      subst same
      exact h.evalRule ih (h.holds moves) List.mem_cons_self (h.node here moves)
    · intro s address st holds here
      refine h.recording holds here fun s' same moves => ?_
      subst same
      exact h.execRule ih (h.holds moves) List.mem_cons_self (h.node here moves)
    · intro s origin callee arguments line holds calls given
      exact h.callRule ih line holds calls given

end Inductive

end Invariant

end Treewalk
