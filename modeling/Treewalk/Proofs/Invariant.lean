import Treewalk.Proofs.Objects
import Treewalk.Proofs.Places.Located
import Treewalk.Proofs.Related
import Treewalk.Proofs.Trace

/-! Invariants of runs. An invariant says what holds of a state, what lies between a state and a later one, and what is
known of a node before it is run, of a value and of what is called. It is inductive if each action of a machine keeps to
it; then so does a run, which is watched and compared with a run of an evaluator at the same time. -/
namespace Treewalk

def Noted (s : Observed) (address : Option Address) (node : Phrase) : Prop :=
  ⟨address, node, .reached, s.machine, s.shadow.sites⟩ ∈ s.shadow.events

structure HeapKept (m m' : Machine) : Prop where
  heap : m'.heap = m.heap
  kept : Kept m m'
  output : m.output.toList <+: m'.output.toList

theorem HeapKept.refl (m : Machine) : HeapKept m m := ⟨rfl, .refl m, ⟨[], List.append_nil _⟩⟩

structure Elsewhere (m m' : Machine) : Prop where
  heap : m'.heap = m.heap
  globals : m'.globals = m.globals
  output : m'.output = m.output

theorem erasedAfter {result : EStateM.Result Halt Observed α} {run : EStateM.Result Halt Machine α}
    (same : erase result = run) : machineAfter run = (observedAfter result).machine := by
  rw [← same]
  cases result <;> rfl

theorem ofExceptAfter (result : Except RuntimeError α) (m : Machine) : machineAfter (Run.ofExcept result m) = m := by
  cases result <;> rfl

theorem assignHolder {m : Machine} {name : Ident} {depth : Depth} {holder : Option FrameId}
    (now : Run.holder? name depth m = .ok holder m) (value : Value) :
    Run.assign name value depth m = match holder with
      | some frame => .ok () (m.define frame name.name value)
      | none => Run.fault name.line (.undefinedVariable name.name) m := by
  change EStateM.bind _ _ m = _
  simp only [EStateM.bind, now]
  cases holder <;> rfl

structure Invariant where
  Holds : Observed → Prop
  Moves : Observed → Observed → Prop
  /- A node that is about to be run, and statements that are about to be run in order. -/
  Node : Observed → Option Address → Phrase → Prop
  Body : Observed → Option Address → Nat → List Stmt → Prop
  /- A statement has ended normally. -/
  Passed : Observed → Option Address → Prop
  Sees : Observed → Value → Prop
  Calls : Observed → Option Address → Callee → Prop
  /- A method with a certain name may be bound to the instance now. -/
  Binds : Observed → InstanceId → String → Prop

namespace Invariant
variable (I : Invariant)

structure Lasting : Prop where
  holds : ∀ {s s'}, I.Moves s s' → I.Holds s'
  refl : ∀ {s}, I.Holds s → I.Moves s s
  trans : ∀ {s s' s''}, I.Moves s s' → I.Moves s' s'' → I.Moves s s''
  node : ∀ {s s' address node}, I.Node s address node → I.Moves s s' → I.Node s' address node
  sees : ∀ {s s' value}, I.Sees s value → I.Moves s s' → I.Sees s' value
  recorded : ∀ {s address node} (moment : Moment), I.Holds s → I.Node s address node →
    I.Moves s (s.record address node moment)
  heapKept : ∀ {s m}, I.Holds s → HeapKept s.machine m → I.Moves s { s with machine := m }
  holdsElsewhere : ∀ {s m}, Elsewhere s.machine m → I.Holds s → I.Holds { s with machine := m }
  seesElsewhere : ∀ {s m value}, Elsewhere s.machine m → I.Sees s value → I.Sees { s with machine := m } value
  callsElsewhere : ∀ {s m origin callee}, Elsewhere s.machine m → I.Calls s origin callee →
    I.Calls { s with machine := m } origin callee
  /- Whatever is run elsewhere comes back to where it started. -/
  movesElsewhere : ∀ {s s' m m'}, Elsewhere s.machine m → I.Moves { s with machine := m } s' → Elsewhere s'.machine m' →
    (s'.machine.environment = m.environment → m'.environment = s.machine.environment) →
    (s'.machine.callDepth = m.callDepth → m'.callDepth = s.machine.callDepth) → I.Moves s { s' with machine := m' }

structure Parts : Prop where
  item : ∀ {s address node part index}, I.Node s address node → node.Plain → node.items[index]? = some part →
    I.Node s (within? address (.item index)) part
  initializer : ∀ {s address name e}, I.Node s address (.stmt (.varDecl name (some e))) →
    I.Node s (within? address .initializer) (.expr e)
  parent : ∀ {s address decl e}, I.Node s address (.stmt (.classDecl decl)) → decl.superclass = some e →
    I.Node s (within? address .superclass) (.expr e)
  first : ∀ {s address index st rest}, I.Body s address index (st :: rest) →
    I.Node s (within? address (.item index)) (.stmt st)
  rest : ∀ {s s' address index st rest}, I.Body s address index (st :: rest) → I.Moves s s' →
    I.Passed s' (within? address (.item index)) → I.Body s' address (index + 1) rest
  passed : ∀ {s s' address st}, I.Node s address (.stmt st) → I.Moves s s' → ¬ st.Declaring → I.Passed s' address

structure Values : Prop where
  plain : ∀ {s value}, value.node? = none → I.Sees s value
  named : ∀ {s address node name depth value}, I.Holds s → I.Node s address node →
    Run.lookUp name depth s.machine = .ok value s.machine → I.Sees s value
  field : ∀ {s id i name value}, I.Holds s → I.Sees s (.instanceObject id) → s.machine.heap.instance? id = some i →
    i.fields.find? name = some value → I.Sees s value
  received : ∀ {s s' origin f line value}, I.Calls s origin (.callable (.function f)) → I.Moves s s' →
    s'.frames.getAt f.closure 0 "this" line = .ok value → I.Sees s' value
  hosts : ∀ {s origin n arguments value}, I.Holds s → I.Calls s origin (.callable (.native n)) →
    (∀ a ∈ arguments, I.Sees s a) → n.run s.machine.hostView arguments = .ok value → I.Sees s value

structure Callees : Prop where
  called : ∀ {s s' s'' address callee arguments line n value target origin values},
    Noted s address (.expr (.call callee arguments line)) →
    (watcher n).eval (within? address (.item 0)) callee s = .ok value s' → I.Moves s s' → I.Sees s' value →
    s'.machine.heap.callee? value = some target → Watch.origin value s' = .ok origin s' →
    (watcher n).evalFrom address 1 arguments s' = .ok values s'' → I.Moves s' s'' → I.Calls s'' origin target
  lambda : ∀ {s address decl}, I.Holds s → I.Node s address (.expr (.lambda decl)) →
    I.Calls s (within? address .function) (.callable (.function ⟨decl, s.machine.environment, false⟩))
  classMethod : ∀ {s id name f}, I.Holds s → I.Sees s (.classObject id) →
    s.machine.heap.findClassMethod? id name = some f →
    I.Calls s (s.classMethodOrigin id name) (.callable (.function f))
  accessed : ∀ {s s' address object name n id}, Noted s address (.expr (.get object name)) →
    (watcher n).eval (within? address (.item 0)) object s = .ok (.instanceObject id) s' → I.Moves s s' →
    I.Binds s' id name.name
  bound : ∀ {s id i name f}, I.Holds s → I.Sees s (.instanceObject id) → I.Binds s id name →
    s.machine.heap.instance? id = some i → i.fields.find? name = none →
    s.machine.heap.findMethod? i.cls name = some f →
    I.Moves s (s.bindThis f (s.methodOrigin i.cls name) id) ∧
    I.Calls (s.bindThis f (s.methodOrigin i.cls name) id) (s.methodOrigin i.cls name)
      (.callable (.function { f with closure := s.frames.nextId }))

structure Changes : Prop where
  assigned : ∀ {s address name source depth value frame}, I.Holds s →
    I.Node s address (.expr (.assign name source depth)) → I.Sees s value →
    Run.holder? name depth s.machine = .ok (some frame) s.machine → I.Moves s (s.define frame name.name value)
  fieldSet : ∀ {s id value} (name : String), I.Holds s → I.Sees s (.instanceObject id) → I.Sees s value →
    I.Moves s { s with machine := s.machine.setField id name value }
  variableDefined : ∀ {s address name initializer value}, I.Holds s →
    I.Node s address (.stmt (.varDecl name initializer)) → I.Sees s value →
    I.Moves s (s.define s.machine.environment name.name value) ∧
    I.Passed (s.define s.machine.environment name.name value) address
  functionMade : ∀ {s origin f}, I.Holds s → I.Calls s origin (.callable (.function f)) →
    I.Moves s (s.addFunction (.function f) origin) ∧
    I.Sees (s.addFunction (.function f) origin) (.function ⟨s.machine.heap.callables.size⟩)
  /- A function and its name come together. -/
  functionDeclared : ∀ {s s' address decl}, I.Holds s → I.Node s address (.stmt (.funDecl decl)) →
    s' = (s.addFunction (.function ⟨decl, s.machine.environment, false⟩) (within? address .function)).define
      s.machine.environment decl.label (.function ⟨s.machine.heap.callables.size⟩) → I.Moves s s' ∧ I.Passed s' address
  classDeclared : ∀ {s s' s'' address decl n superclass}, Noted s address (.stmt (.classDecl decl)) →
    I.Node s' address (.stmt (.classDecl decl)) →
    (watcher n).superclass address decl.superclass s = .ok superclass s' → I.Moves s s' →
    (∀ id, superclass = some id → I.Sees s' (.classObject id)) →
    s'' = (s'.withClass address decl superclass).define s'.machine.environment decl.name.name
      (.classObject ⟨s'.machine.heap.classes.size⟩) → I.Moves s' s'' ∧ I.Passed s'' address
  instanceMade : ∀ {s s' origin cls}, I.Holds s → I.Calls s origin (.construct cls) →
    s' = { s with machine := s.machine.addInstance ⟨cls, .empty⟩ } → I.Moves s s' ∧
    I.Sees s' (.instanceObject ⟨s.machine.heap.instances.size⟩) ∧ I.Binds s' ⟨s.machine.heap.instances.size⟩ "init"
  blockOpened : ∀ {s s' address body}, I.Holds s → I.Node s address (.stmt (.block body)) →
    s' = s.addFrame s.machine.environment (siteOf address .block) →
    I.Moves s s' ∧ I.Body (s'.within s.frames.nextId) address 0 body
  functionOpened : ∀ {s origin f}, I.Holds s → I.Calls s origin (.callable (.function f)) →
    I.Moves s (s.addFrame f.closure (siteOf origin .parameters))
  parameterBound : ∀ {s s' origin f param value}, I.Holds s → I.Calls s origin (.callable (.function f)) →
    I.Moves (s.addFrame f.closure (siteOf origin .parameters)) s' → param ∈ f.decl.params → I.Sees s' value →
    I.Moves s' (s'.define s.frames.nextId param.name value)
  bodyOpened : ∀ {s s' s'' origin f}, I.Holds s → I.Calls s origin (.callable (.function f)) →
    I.Moves (s.addFrame f.closure (siteOf origin .parameters)) s' →
    (∀ param ∈ f.decl.params, s'.frames.contains s.frames.nextId param.name = true) →
    s'' = s'.addFrame s.frames.nextId (siteOf origin .body) →
    I.Moves s' s'' ∧ I.Body (s''.within s'.frames.nextId) origin 0 f.decl.body

structure Inductive : Prop extends I.Lasting, I.Parts, I.Values, I.Callees, I.Changes

/- A watched run comes to what the run does, and gets only to where the invariant lets it. -/
def Survives (s : Observed) (w : Watch α) (r : Run α) (post : α → Observed → Prop) : Prop :=
  erase (w s) = r s.machine ∧ I.Moves s (observedAfter (w s)) ∧ ∀ a s', w s = .ok a s' → post a s'

variable {I}

namespace Survives
variable {s : Observed} {w : Watch α} {r : Run α} {post : α → Observed → Prop}

theorem done {s' : Observed} {a : α} (now : w s = .ok a s') (now' : r s.machine = .ok a s'.machine)
    (moves : I.Moves s s') (known : post a s') : I.Survives s w r post := by
  unfold Survives
  rw [now, now']
  refine ⟨rfl, moves, ?_⟩
  intro a' s'' ended
  cases ended
  exact known

theorem failed {s' : Observed} (halt : Halt) (now : w s = .error halt s') (now' : r s.machine = .error halt s'.machine)
    (moves : I.Moves s s') : I.Survives s w r post := by
  unfold Survives
  rw [now, now']
  refine ⟨rfl, moves, ?_⟩
  intro a s'' ended
  cases ended

theorem ended {a : α} {m' : Machine} (h : I.Survives s w r post) (run : r s.machine = .ok a m') :
    ∃ s', s'.machine = m' ∧ I.Moves s s' ∧ post a s' := by
  obtain ⟨same, moves, known⟩ := h
  rw [run] at same
  cases ran : w s with
  | error halt s' =>
    rw [ran] at same
    cases same
  | ok b s' =>
    rw [ran] at same moves
    cases same
    exact ⟨s', rfl, moves, known _ s' ran⟩

theorem ends (h : I.Survives s w r post) :
    (∃ a s', w s = .ok a s' ∧ r s.machine = .ok a s'.machine ∧ I.Moves s s' ∧ post a s') ∨
    ∃ halt s', w s = .error halt s' ∧ r s.machine = .error halt s'.machine ∧ I.Moves s s' := by
  obtain ⟨same, moves, known⟩ := h
  cases run : w s with
  | ok a s' =>
    rw [run] at same moves
    exact .inl ⟨a, s', rfl, same.symm, moves, known a s' run⟩
  | error halt s' =>
    rw [run] at same moves
    exact .inr ⟨halt, s', rfl, same.symm, moves⟩

theorem congr {r' : Run α} (w' : Watch α) (same : w s = w' s) (same' : r s.machine = r' s.machine)
    (h : I.Survives s w' r' post) : I.Survives s w r post := by
  unfold Survives
  rw [same, same']
  exact h

theorem mono {post' : α → Observed → Prop} (h : I.Survives s w r post)
    (weaker : ∀ a s', I.Moves s s' → post a s' → post' a s') : I.Survives s w r post' := by
  obtain ⟨same, moves, known⟩ := h
  refine ⟨same, moves, ?_⟩
  intro a s' run
  rw [run] at moves
  exact weaker a s' moves (known a s' run)

theorem silent {β : Type} {first : Watch β} {k : β → Watch α} {b : β} (now : first s = .ok b s)
    (next : I.Survives s (k b) r post) : I.Survives s (first >>= k) r post := by
  have opened : (first >>= k) s = k b s := by
    change EStateM.bind first k s = _
    simp only [EStateM.bind, now]
  exact next.congr _ opened rfl

end Survives

namespace Inductive
variable (h : I.Inductive) {s s' : Observed} {post : α → Observed → Prop}
include h

theorem pure {a : α} (holds : I.Holds s) (known : post a s) : I.Survives s (Pure.pure a) (Pure.pure a) post := by
  refine ⟨rfl, h.refl holds, ?_⟩
  intro a' s' run
  cases run
  exact known

theorem bind {w : Watch α} {r : Run α} {k : α → Watch β} {l : α → Run β} {mid : α → Observed → Prop}
    {post : β → Observed → Prop} (first : I.Survives s w r mid)
    (second : ∀ a s', w s = .ok a s' → I.Moves s s' → mid a s' → I.Survives s' (k a) (l a) post) :
    I.Survives s (w >>= k) (r >>= l) post := by
  change I.Survives s (EStateM.bind w k) (EStateM.bind r l) post
  obtain ⟨a, s', run, run', moves, known⟩ | ⟨halt, s', run, run', moves⟩ := first.ends
  · obtain ⟨b, s'', next, next', moves', known'⟩ | ⟨halt, s'', next, next', moves'⟩ :=
      (second a s' run moves known).ends
    · exact .done (by simp only [EStateM.bind, run, next]) (by simp only [EStateM.bind, run', next'])
        (h.trans moves moves') known'
    · exact .failed halt (by simp only [EStateM.bind, run, next]) (by simp only [EStateM.bind, run', next'])
        (h.trans moves moves')
  · exact .failed halt (by simp only [EStateM.bind, run]) (by simp only [EStateM.bind, run']) moves

theorem step {w : Watch α} {r : Run α} {k : α → Watch β} {l : α → Run β} {post : β → Observed → Prop} {a : α}
    (now : w s = .ok a s') (now' : r s.machine = .ok a s'.machine) (moves : I.Moves s s')
    (next : I.Survives s' (k a) (l a) post) : I.Survives s (w >>= k) (r >>= l) post := by
  have first : I.Survives s w r (fun a' s'' => a' = a ∧ s'' = s') := .done now now' moves ⟨rfl, rfl⟩
  apply h.bind first
  rintro _ _ _ _ ⟨rfl, rfl⟩
  exact next

theorem recording {w : Watch α} {r : Run α} {address : Option Address} {node : Phrase} {moment : Moment}
    (holds : I.Holds s) (here : I.Node s address node)
    (next : ∀ s', s' = s.record address node moment → I.Moves s s' → I.Survives s' w r post) :
    I.Survives s (do Watch.record address node moment; w) r post := by
  have moves := h.recorded moment holds here
  obtain ⟨same, moves', known⟩ := next _ rfl moves
  exact ⟨same, h.trans moves moves', known⟩

theorem lift {r : Run α} (holds : I.Holds s) (kept : HeapKept s.machine (machineAfter (r s.machine)))
    (known : ∀ a m, r s.machine = .ok a m → post a { s with machine := m }) : I.Survives s (Watch.lift r) r post := by
  cases run : r s.machine with
  | ok a m =>
    rw [run] at kept
    have moves : I.Moves s { s with machine := m } := h.heapKept holds kept
    exact .done (by simp only [Watch.lift, run]) run moves (known a m run)
  | error halt m =>
    rw [run] at kept
    have moves : I.Moves s { s with machine := m } := h.heapKept holds kept
    exact .failed halt (by simp only [Watch.lift, run]) run moves

theorem fault (holds : I.Holds s) (line : Nat) (f : RuntimeFault) :
    I.Survives s (Watch.lift (Run.fault line f)) (Run.fault line f) post :=
  h.lift holds (.refl s.machine) fun _ _ ended => by cases ended

theorem exhausted (holds : I.Holds s) : I.Survives s (Watch.lift Run.exhausted) Run.exhausted post :=
  h.lift holds (.refl s.machine) fun _ _ ended => by cases ended

theorem ofExcept {result : Except RuntimeError α} (holds : I.Holds s) (known : ∀ a, result = .ok a → post a s) :
    I.Survives s (Watch.lift (Run.ofExcept result)) (Run.ofExcept result) post := by
  cases result with
  | error e => exact h.lift holds (.refl s.machine) fun _ _ ended => by cases ended
  | ok a => exact .done rfl rfl (h.refl holds) (known a rfl)

theorem lookUp {address : Option Address} {node : Phrase} (holds : I.Holds s) (here : I.Node s address node)
    (name : Ident) (depth : Depth) :
    I.Survives s (Watch.lift (Run.lookUp name depth)) (Run.lookUp name depth) (fun value s' => I.Sees s' value) := by
  have same : machineAfter (Run.lookUp name depth s.machine) = s.machine := by
    cases depth with
    | none => exact ofExceptAfter _ _
    | some d => exact ofExceptAfter _ _
  apply h.lift holds
  · rw [same]
    exact .refl s.machine
  · intro value m run
    rw [run] at same
    cases same
    exact h.named holds here run

theorem receiver {start : Observed} {origin : Option Address} {f : Function} (holds : I.Holds s)
    (calls : I.Calls start origin (.callable (.function f))) (moves : I.Moves start s) (line : Nat) :
    I.Survives s (Watch.lift (f.receiver line)) (f.receiver line) (fun value s' => I.Sees s' value) := by
  have read : I.Survives s (Watch.lift (Run.ofExcept (s.frames.getAt f.closure 0 "this" line)))
      (Run.ofExcept (s.frames.getAt f.closure 0 "this" line)) (fun value s' => I.Sees s' value) :=
    h.ofExcept holds fun _ found => h.received calls moves found
  exact read

theorem write (holds : I.Holds s) (value : Value) (line : Nat) :
    I.Survives s (Watch.lift (Run.write value line)) (Run.write value line) (fun _ _ => True) := by
  refine h.lift holds ⟨?_, Keeps.write value line s.machine, ?_⟩ fun _ _ _ => trivial
  · unfold Run.write
    dsimp only
    cases s.machine.outputFault.reason? <;> rfl
  · unfold Run.write
    dsimp only
    cases s.machine.outputFault.reason? with
    | some reason => exact List.prefix_rfl
    | none =>
      change s.machine.output.toList <+: (s.machine.output ++ s.machine.heap.display value ++ "\n").toList
      rw [String.toList_append, String.toList_append, List.append_assoc]
      exact List.prefix_append _ _

theorem setLast (holds : I.Holds s) (value : Value) :
    I.Survives s (Watch.lift (Run.setLast value)) (Run.setLast value) (fun _ _ => True) :=
  h.lift holds ⟨rfl, Keeps.setLast value s.machine, List.prefix_rfl⟩ fun _ _ _ => trivial

theorem callNative {origin : Option Address} {n : Native} {arguments : List Value} (holds : I.Holds s)
    (calls : I.Calls s origin (.callable (.native n))) (given : ∀ a ∈ arguments, I.Sees s a) (line : Nat) :
    I.Survives s (Watch.lift (Run.callNative n arguments line)) (Run.callNative n arguments line)
      (fun value s' => I.Sees s' value) := by
  have kept : HeapKept s.machine { s.machine with clock := s.machine.clock.tick } :=
    ⟨rfl, ⟨rfl, rfl, rfl⟩, List.prefix_rfl⟩
  cases run : n.run s.machine.hostView arguments with
  | ok value =>
    have now : Run.callNative n arguments line s.machine =
        .ok value { s.machine with clock := s.machine.clock.tick } := by simp [Run.callNative, run]
    have moves := h.heapKept holds kept
    refine .done (by simp only [Watch.lift, now]) now moves (h.sees (h.hosts holds calls given run) moves)
  | error message =>
    have now : Run.callNative n arguments line s.machine =
        .error (.error ⟨line, .host message⟩) { s.machine with clock := s.machine.clock.tick } := by
      simp [Run.callNative, run, Run.fault]
    apply h.lift holds
    · rw [now]
      exact kept
    · intro value m ended
      cases now.symm.trans ended

theorem assign {address : Option Address} {name : Ident} {source : Expr} {depth : Depth} {value : Value}
    (holds : I.Holds s) (here : I.Node s address (.expr (.assign name source depth))) (seen : I.Sees s value) :
    I.Survives s (Watch.lift (Run.assign name value depth)) (Run.assign name value depth) (fun _ _ => True) := by
  obtain ⟨holder, now⟩ : ∃ holder, Run.holder? name depth s.machine = .ok holder s.machine := by
    cases depth with
    | none => exact ⟨_, rfl⟩
    | some d => exact ⟨_, rfl⟩
  have run := assignHolder now value
  cases holder with
  | none =>
    apply h.lift holds
    · rw [run]
      exact .refl s.machine
    · exact fun _ _ _ => trivial
  | some frame =>
    exact .done (by simp only [Watch.lift, run, Observed.define]) run (h.assigned holds here seen now) trivial

theorem within {w : Watch α} {r : Run α} {frame : FrameId} {mid : α → Observed → Prop}
    (inner : I.Survives (s.within frame) w r mid)
    (after : ∀ a s', mid a s' → post a (s'.within s.machine.environment)) :
    I.Survives s (Watch.within frame w) (Run.within frame r) post := by
  have away : ∀ (m : Machine) (frame : FrameId), Elsewhere m { m with environment := frame } :=
    fun _ _ => ⟨rfl, rfl, rfl⟩
  have back : ∀ s', I.Moves (s.within frame) s' → I.Moves s (s'.within s.machine.environment) :=
    fun s' moves => h.movesElsewhere (away s.machine frame) moves (away s'.machine s.machine.environment)
      (fun _ => rfl) id
  unfold Observed.within at inner
  obtain ⟨a, s', run, run', moves, known⟩ | ⟨halt, s', run, run', moves⟩ := inner.ends
  · exact .done (by simp only [Watch.within, run, Observed.within]) (by simp only [Run.within, run', Observed.within])
      (back s' moves) (after a s' known)
  · exact .failed halt (by simp only [Watch.within, run, Observed.within]) (by simp only [Run.within, run', Observed.within])
      (back s' moves)

theorem counted {w : Watch α} {r : Run α} {mid : α → Observed → Prop}
    (inner : I.Survives s.deeper w r mid)
    (after : ∀ a s', mid a s' → post a { s' with machine := { s'.machine with callDepth := s'.machine.callDepth - 1 } }) :
    I.Survives s (Watch.counted w) (Run.counted r) post := by
  have away : ∀ (m : Machine) (calls : Nat), Elsewhere m { m with callDepth := calls } := fun _ _ => ⟨rfl, rfl, rfl⟩
  have back : ∀ s', I.Moves s.deeper s' →
      I.Moves s { s' with machine := { s'.machine with callDepth := s'.machine.callDepth - 1 } } :=
    fun s' moves => h.movesElsewhere (away s.machine _) moves (away s'.machine _) id (congrArg (· - 1))
  unfold Observed.deeper at inner
  obtain ⟨a, s', run, run', moves, known⟩ | ⟨halt, s', run, run', moves⟩ := inner.ends
  · exact .done (by simp only [Watch.counted, run]) (by simp only [Run.counted, run']) (back s' moves) (after a s' known)
  · exact .failed halt (by simp only [Watch.counted, run]) (by simp only [Run.counted, run']) (back s' moves)

end Inductive

end Invariant

end Treewalk
