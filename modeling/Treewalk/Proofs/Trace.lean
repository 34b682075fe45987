import Treewalk.Session
import Treewalk.Proofs.Places

/-! Evaluation with a shadow. The shadow remembers which site every frame was made for and which phrase every
function and method comes from, and keeps a record of each phrase that is run and each name that is looked up. It
is never asked for anything by the run itself. Code without an address is older than the session. -/
namespace Treewalk

inductive Moment where
  | reached
  | accessed
  deriving DecidableEq, Repr

/- The node that is run, as resolving made it, with the machine and the sites of its frames at that time. -/
structure Event where
  address : Option Address
  node : Phrase
  moment : Moment
  machine : Machine
  sites : FrameId → Option Site

structure Shadow where
  sites : FrameId → Option Site
  functions : FunctionId → Option Address
  methods : ClassId → Table Address
  classMethods : ClassId → Table Address
  events : List Event

def Shadow.none : Shadow := ⟨fun _ => .none, fun _ => .none, fun _ => .empty, fun _ => .empty, []⟩

structure Observed where
  machine : Machine
  shadow : Shadow

def Observed.frames (s : Observed) : Frames := s.machine.heap.frames

def Heap.originAlong (h : Heap) (table : Class → Table Function) (origins : ClassId → Table Address)
    (name : String) : Nat → ClassId → Option Address
  | 0, _ => none
  | more + 1, id =>
    match h.class? id with
    | none => none
    | some c =>
      match (table c).find? name, c.superclass with
      | some _, _ => (origins id).find? name
      | none, some superclass => h.originAlong table origins name more superclass
      | none, none => none

inductive Heap.Descends (h : Heap) : ClassId → ClassId → Prop where
  | same (id : ClassId) : Heap.Descends h id id
  | above {id superclass ancestor : ClassId} {c : Class} (here : h.class? id = some c)
      (link : c.superclass = some superclass) (rest : Heap.Descends h superclass ancestor) :
      Heap.Descends h id ancestor

theorem Heap.foundAlong {h : Heap} {table : Class → Table Function} (origins : ClassId → Table Address) {name : String}
    {more : Nat} {id : ClassId} {f : Function} (found : h.findAlong table name more id = some f) :
    ∃ holder c, h.Descends id holder ∧ h.class? holder = some c ∧ (table c).find? name = some f ∧
      h.originAlong table origins name more id = (origins holder).find? name := by
  induction more generalizing id with
  | zero => cases found
  | succ more ih =>
    unfold Heap.findAlong at found
    unfold Heap.originAlong
    cases here : h.class? id with
    | none => simp [here] at found
    | some c =>
      cases own : (table c).find? name with
      | some f' =>
        simp only [here, own] at found
        cases found
        exact ⟨id, c, .same id, here, own, by simp only [own]⟩
      | none =>
        cases up : c.superclass with
        | none => simp [here, own, up] at found
        | some superclass =>
          simp only [here, own, up] at found
          obtain ⟨holder, c', descends, there, held, same⟩ := ih found
          exact ⟨holder, c', .above here up descends, there, held, by simpa only [own, up] using same⟩

namespace Observed

def methodOrigin (s : Observed) (id : ClassId) (name : String) : Option Address :=
  s.machine.heap.originAlong Class.methods s.shadow.methods name s.machine.heap.classes.size id

def classMethodOrigin (s : Observed) (id : ClassId) (name : String) : Option Address :=
  s.machine.heap.originAlong Class.classMethods s.shadow.classMethods name s.machine.heap.classes.size id

def within (s : Observed) (frame : FrameId) : Observed :=
  { s with machine := { s.machine with environment := frame } }

def deeper (s : Observed) : Observed :=
  { s with machine := { s.machine with callDepth := s.machine.callDepth + 1 } }

def define (s : Observed) (frame : FrameId) (name : String) (value : Value) : Observed :=
  { s with machine := s.machine.define frame name value }

def addFrame (s : Observed) (parent : FrameId) (site : Option Site) : Observed :=
  ⟨s.machine.addFrame parent, { s.shadow with
    sites := fun id => if id = s.frames.nextId then site else s.shadow.sites id }⟩

def addFunction (s : Observed) (c : Callable) (origin : Option Address) : Observed :=
  ⟨s.machine.addCallable c, { s.shadow with
    functions := fun id => if id = ⟨s.machine.heap.callables.size⟩ then origin else s.shadow.functions id }⟩

def addClass (s : Observed) (c : Class) (methods classMethods : Table Address) : Observed :=
  ⟨s.machine.addClass c, { s.shadow with
    methods := fun id => if id = ⟨s.machine.heap.classes.size⟩ then methods else s.shadow.methods id
    classMethods := fun id =>
      if id = ⟨s.machine.heap.classes.size⟩ then classMethods else s.shadow.classMethods id }⟩

def record (s : Observed) (address : Option Address) (node : Phrase) (moment : Moment) : Observed :=
  { s with shadow := { s.shadow with
    events := ⟨address, node, moment, s.machine, s.shadow.sites⟩ :: s.shadow.events } }

end Observed

abbrev Watch := EStateM Halt Observed

namespace Watch

def lift (action : Run α) : Watch α := fun s =>
  match action s.machine with
  | .ok a m => .ok a { s with machine := m }
  | .error e m => .error e { s with machine := m }

def record (address : Option Address) (node : Phrase) (moment : Moment) : Watch Unit :=
  fun s => .ok () (s.record address node moment)

def newFrame (parent : FrameId) (site : Option Site) : Watch FrameId :=
  fun s => .ok s.frames.nextId (s.addFrame parent site)

def newFunction (c : Callable) (origin : Option Address) : Watch Value :=
  fun s => .ok (.function ⟨s.machine.heap.callables.size⟩) (s.addFunction c origin)

def newClass (c : Class) (methods classMethods : Table Address) : Watch Value :=
  fun s => .ok (.classObject ⟨s.machine.heap.classes.size⟩) (s.addClass c methods classMethods)

def within (frame : FrameId) (action : Watch α) : Watch α := fun s =>
  let before := s.machine.environment
  match action { s with machine := { s.machine with environment := frame } } with
  | .ok a s => .ok a { s with machine := { s.machine with environment := before } }
  | .error e s => .error e { s with machine := { s.machine with environment := before } }

def inNewFrame (parent : FrameId) (site : Option Site) (action : Watch α) : Watch α := do
  let frame ← newFrame parent site
  within frame action

def counted (action : Watch α) : Watch α := fun s =>
  match action { s with machine := { s.machine with callDepth := s.machine.callDepth + 1 } } with
  | .ok a s => .ok a { s with machine := { s.machine with callDepth := s.machine.callDepth - 1 } }
  | .error e s => .error e { s with machine := { s.machine with callDepth := s.machine.callDepth - 1 } }

def origin (value : Value) : Watch (Option Address) := fun s =>
  match value with
  | .function id => .ok (s.shadow.functions id) s
  | _ => .ok none s

def methodOrigin (cls : ClassId) (name : String) : Watch (Option Address) :=
  fun s => .ok (s.methodOrigin cls name) s

end Watch

def siteOf (opener : Option Address) (role : Role) : Option Site := opener.map fun address => ⟨address, role⟩

def Function.watchBind (f : Function) (origin : Option Address) (receiver : InstanceId) : Watch Function := do
  let frame ← Watch.newFrame f.closure (siteOf (origin.map List.tail) .receiver)
  Watch.lift (Run.define frame "this" (.instanceObject receiver))
  return { f with closure := frame }

def Function.watchBound (f : Function) (origin : Option Address) (receiver : InstanceId) : Watch Value := do
  let bound ← f.watchBind origin receiver
  Watch.newFunction (.function bound) origin

def Watch.instanceProperty (id : InstanceId) (name : Ident) : Watch Value := fun s =>
  match s.machine.heap.instance? id with
  | none => Watch.lift (Run.fault name.line (.undefinedProperty name.name)) s
  | some i =>
    match i.fields.find? name.name with
    | some value => .ok value s
    | none =>
      match s.machine.heap.findMethod? i.cls name.name with
      | some method => method.watchBound (s.methodOrigin i.cls name.name) id s
      | none => Watch.lift (Run.fault name.line (.undefinedProperty name.name)) s

def Watch.classProperty (id : ClassId) (name : Ident) : Watch Value := fun s =>
  match s.machine.heap.findClassMethod? id name.name with
  | some method => Watch.newFunction (.function method) (s.classMethodOrigin id name.name) s
  | none => Watch.lift (Run.fault name.line (.undefinedProperty name.name)) s

def Watch.property (object : Value) (name : Ident) : Watch Value :=
  match object with
  | .instanceObject id => Watch.instanceProperty id name
  | .classObject id => Watch.classProperty id name
  | other => Watch.lift (Run.fault name.line (.noProperties other.typeTag))

/- The origins of methods by name; as in `methodTable` the later of two counts. -/
def originTable (way : Nat → Address) : Nat → List FunctionDecl → Table Address → Table Address
  | _, [], table => table
  | index, decl :: rest, table => originTable way (index + 1) rest (table.insert decl.label (way index))

def originsAt (address : Option Address) (step : Nat → Step) (decls : List FunctionDecl) : Table Address :=
  match address with
  | some address => originTable (fun index => step index :: address) 0 decls .empty
  | none => .empty

namespace Observed

def bindThis (s : Observed) (f : Function) (origin : Option Address) (receiver : InstanceId) : Observed :=
  (s.addFrame f.closure (siteOf (origin.map List.tail) .receiver)).define s.frames.nextId "this"
    (.instanceObject receiver)

def classOf (s : Observed) (decl : ClassDecl) (superclass : Option ClassId) : Class where
  name := decl.name.name
  superclass := superclass
  methods := methodTable s.machine.environment FunctionDecl.isInitializer decl.methods
  classMethods := methodTable s.frames.nextId (fun _ => false) decl.classMethods

def withClass (s : Observed) (address : Option Address) (decl : ClassDecl) (superclass : Option ClassId) : Observed :=
  (s.addFrame s.machine.environment (siteOf address .classSide)).addClass (s.classOf decl superclass)
    (originsAt address .method decl.methods) (originsAt address .classMethod decl.classMethods)

end Observed

def within? (address : Option Address) (step : Step) : Option Address := address.map (step :: ·)

structure Watcher where
  eval : Option Address → Expr → Watch Value
  exec : Option Address → Stmt → Watch Completion
  call : Option Address → Callee → List Value → Nat → Watch Value

namespace Watcher

def evalFrom (r : Watcher) (address : Option Address) : Nat → List Expr → Watch (List Value)
  | _, [] => return []
  | index, e :: rest =>
    return (← r.eval (within? address (.item index)) e) :: (← r.evalFrom address (index + 1) rest)

def execFrom (r : Watcher) (address : Option Address) : Nat → List Stmt → Watch Completion
  | _, [] => return .normal
  | index, s :: rest => do
    match ← r.exec (within? address (.item index)) s with
    | .normal => r.execFrom address (index + 1) rest
    | .returned value => return .returned value

def invoke (r : Watcher) (origin : Option Address) (f : Function) (arguments : List Value) (line : Nat) :
    Watch Value := do
  let frame ← Watch.newFrame f.closure (siteOf origin .parameters)
  Watch.lift (Run.bindParameters frame f.decl.params arguments)
  let completion ← Watch.inNewFrame frame (siteOf origin .body) (r.execFrom origin 0 f.decl.body)
  if f.isInitializer then Watch.lift (f.receiver line)
  else match completion with
    | .returned value => return value
    | .normal => return .nil

def construct (r : Watcher) (cls : ClassId) (arguments : List Value) (line : Nat) : Watch Value := do
  let id ← Watch.lift (Run.newInstance cls)
  let origin ← Watch.methodOrigin cls "init"
  match ← Watch.lift (Run.findMethod? cls "init") with
  | some initializer =>
    let bound ← initializer.watchBind origin id
    let _ ← r.invoke origin bound arguments line
    return .instanceObject id
  | none => return .instanceObject id

def start (r : Watcher) (origin : Option Address) (callee : Callee) (arguments : List Value) (line : Nat) :
    Watch Value :=
  match callee with
  | .callable (.function f) => r.invoke origin f arguments line
  | .callable (.native n) => Watch.lift (Run.callNative n arguments line)
  | .construct cls => r.construct cls arguments line

def callRule (r : Watcher) (origin : Option Address) (callee : Callee) (arguments : List Value) (line : Nat) :
    Watch Value := fun s =>
  let arity := s.machine.heap.arity callee
  if arguments.length ≠ arity then
    Watch.lift (Run.fault line (.arityMismatch arity arguments.length)) s
  else if s.machine.callDepth ≥ maxCallDepth then
    Watch.lift (Run.fault line (.stackOverflow maxCallDepth)) s
  else Watch.counted (r.start origin callee arguments line) s

/- A name is accessed when its rule gets to it: for an assignment, after the value is known. -/
def evalRule (r : Watcher) (address : Option Address) : Expr → Watch Value
  | .literal value _ => return value.toValue
  | .grouping inner => r.eval (within? address (.item 0)) inner
  | .unary op right line => do
    let right ← r.eval (within? address (.item 0)) right
    Watch.lift (Run.ofExcept (op.apply right line))
  | .binary left op right line => do
    let left ← r.eval (within? address (.item 0)) left
    let right ← r.eval (within? address (.item 1)) right
    Watch.lift (Run.ofExcept (op.apply left right line))
  | .logical left op right _ => do
    let left ← r.eval (within? address (.item 0)) left
    if op.decidedBy left then return left else r.eval (within? address (.item 1)) right
  | .ternary condition thenBranch elseBranch _ => do
    let condition ← r.eval (within? address (.item 0)) condition
    if condition.isTruthy then r.eval (within? address (.item 1)) thenBranch
    else r.eval (within? address (.item 2)) elseBranch
  | .var name depth => do
    Watch.record address (.expr (.var name depth)) .accessed
    Watch.lift (Run.lookUp name depth)
  | .this keyword depth => do
    Watch.record address (.expr (.this keyword depth)) .accessed
    Watch.lift (Run.lookUp keyword depth)
  | .assign name source depth => do
    let value ← r.eval (within? address (.item 0)) source
    Watch.record address (.expr (.assign name source depth)) .accessed
    Watch.lift (Run.assign name value depth)
    return value
  | .call callee arguments line => do
    let callee ← r.eval (within? address (.item 0)) callee
    match ← Watch.lift (Run.callee? callee) with
    | some target =>
      let origin ← Watch.origin callee
      let arguments ← r.evalFrom address 1 arguments
      r.call origin target arguments line
    | none => Watch.lift (Run.fault line .notCallable)
  | .get object name => do
    let object ← r.eval (within? address (.item 0)) object
    Watch.property object name
  | .set object name value => do
    match ← r.eval (within? address (.item 0)) object with
    | .instanceObject id =>
      let value ← r.eval (within? address (.item 1)) value
      Watch.lift (Run.setField id name.name value)
      return value
    | _ => Watch.lift (Run.fault name.line .noFields)
  | .lambda decl => do
    let closure ← Watch.lift Run.environment
    Watch.newFunction (.function ⟨decl, closure, false⟩) (within? address .function)

def superclass (r : Watcher) (address : Option Address) : Option Expr → Watch (Option ClassId)
  | none => return none
  | some e => do
    match ← r.eval (within? address .superclass) e with
    | .classObject id => return some id
    | other => Watch.lift (Run.fault e.line (.superclassNotClass other.typeTag))

def declareClass (r : Watcher) (address : Option Address) (decl : ClassDecl) : Watch Unit := do
  let superclass ← r.superclass address decl.superclass
  let environment ← Watch.lift Run.environment
  let classFrame ← Watch.newFrame environment (siteOf address .classSide)
  let cls ← Watch.newClass
    { name := decl.name.name
      superclass := superclass
      methods := methodTable environment FunctionDecl.isInitializer decl.methods
      classMethods := methodTable classFrame (fun _ => false) decl.classMethods }
    (originsAt address .method decl.methods) (originsAt address .classMethod decl.classMethods)
  Watch.lift (Run.defineHere decl.name.name cls)

def evalOption (r : Watcher) (address : Option Address) : Option Expr → Watch Value
  | some e => r.eval address e
  | none => return .nil

def execRule (r : Watcher) (address : Option Address) : Stmt → Watch Completion
  | .expression e => do
    let value ← r.eval (within? address (.item 0)) e
    Watch.lift (Run.setLast value)
    return .normal
  | .print e => do
    let value ← r.eval (within? address (.item 0)) e
    Watch.lift (Run.write value e.line)
    return .normal
  | .varDecl name initializer => do
    let value ← r.evalOption (within? address .initializer) initializer
    Watch.lift (Run.defineHere name.name value)
    return .normal
  | .block body => do
    let environment ← Watch.lift Run.environment
    Watch.inNewFrame environment (siteOf address .block) (r.execFrom address 0 body)
  | .ifElse condition thenBranch elseBranch => do
    let condition ← r.eval (within? address (.item 0)) condition
    if condition.isTruthy then r.exec (within? address (.item 1)) thenBranch
    else match elseBranch with
      | some elseBranch => r.exec (within? address (.item 2)) elseBranch
      | none => return .normal
  | .whileLoop condition body => do
    let test ← r.eval (within? address (.item 0)) condition
    if test.isTruthy then
      match ← r.exec (within? address (.item 1)) body with
      | .normal => r.exec address (.whileLoop condition body)
      | .returned value => return .returned value
    else return .normal
  | .funDecl decl => do
    let closure ← Watch.lift Run.environment
    let function ← Watch.newFunction (.function ⟨decl, closure, false⟩) (within? address .function)
    Watch.lift (Run.defineHere decl.label function)
    return .normal
  | .classDecl decl => do
    r.declareClass address decl
    return .normal
  | .returnStmt _ value => do
    let value ← r.evalOption (within? address (.item 0)) value
    return .returned value

def execProgram (r : Watcher) (address : Option Address) : Nat → Program → Watch Unit
  | _, [] => return ()
  | index, s :: rest => do
    let _ ← r.exec (within? address (.item index)) s
    r.execProgram address (index + 1) rest

end Watcher

mutual

def watchEval : Nat → Option Address → Expr → Watch Value
  | 0, _, _ => Watch.lift Run.exhausted
  | n + 1, address, e => do
    Watch.record address (.expr e) .reached
    Watcher.evalRule ⟨watchEval n, watchExec n, watchCall n⟩ address e

def watchExec : Nat → Option Address → Stmt → Watch Completion
  | 0, _, _ => Watch.lift Run.exhausted
  | n + 1, address, s => do
    Watch.record address (.stmt s) .reached
    Watcher.execRule ⟨watchEval n, watchExec n, watchCall n⟩ address s

def watchCall : Nat → Option Address → Callee → List Value → Nat → Watch Value
  | 0, _, _, _, _ => Watch.lift Run.exhausted
  | n + 1, origin, callee, arguments, line =>
    Watcher.callRule ⟨watchEval n, watchExec n, watchCall n⟩ origin callee arguments line

end

def watcher (n : Nat) : Watcher := ⟨watchEval n, watchExec n, watchCall n⟩

def Watch.attempt (action : Watch Unit) : Watch Unit := fun s =>
  match action s with
  | .error (.error _) s => .ok () s
  | result => result

def watchSession (limit : Nat) : Nat → List Program → Watch Unit
  | _, [] => return ()
  | index, program :: rest => do
    Watch.attempt ((watcher limit).execProgram (some [.program index]) 0 program.resolve.1)
    watchSession limit (index + 1) rest

def Machine.events (limit : Nat) (programs : List Program) (m : Machine) : List Event :=
  match watchSession limit 0 programs ⟨m, .none⟩ with
  | .ok _ s => s.shadow.events
  | .error _ s => s.shadow.events

def Machine.interpretAll (limit : Nat) : List Program → Machine → Option Machine
  | [], m => some m
  | program :: rest, m => do
    let (_, m) ← m.interpret limit program
    m.interpretAll limit rest

def erase : EStateM.Result Halt Observed α → EStateM.Result Halt Machine α
  | .ok a s => .ok a s.machine
  | .error e s => .error e s.machine

def observedAfter : EStateM.Result Halt Observed α → Observed
  | .ok _ s => s
  | .error _ s => s

def Erases (w : Watch α) (r : Run α) : Prop := ∀ s, erase (w s) = r s.machine

theorem Erases.ran {w : Watch α} {r : Run α} {s s' : Observed} {a : α} (erases : Erases w r) (run : w s = .ok a s') :
    r s.machine = .ok a s'.machine := by
  have same := erases s
  rw [run] at same
  exact same.symm

theorem Watch.liftBind (r : Run α) (k : α → Run β) :
    Watch.lift (r >>= k) = Watch.lift r >>= fun a => Watch.lift (k a) := by
  funext s
  change Watch.lift (EStateM.bind r k) s = EStateM.bind (Watch.lift r) _ s
  unfold Watch.lift EStateM.bind
  cases run : r s.machine <;> simp only [run]

end Treewalk
