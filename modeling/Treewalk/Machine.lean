import Treewalk.Heap

/-! The machine that programs run on, and its elementary actions. An action ends with a result, with a runtime
error, or not within its bound; in the first two cases the machine goes on from where it got to. -/
namespace Treewalk

/-- The host's clock: what it shows at each call of a function of the host, and how many calls there were. -/
structure Clock where
  readings : Nat → Float
  calls : Nat

namespace Clock

def seconds (c : Clock) : Float := c.readings c.calls

def tick (c : Clock) : Clock := { c with calls := c.calls + 1 }

end Clock

/-- The host's writer: why each write fails, for those that do, and how many writes there were. -/
structure WriteFaults where
  reasons : Nat → Option String
  writes : Nat

namespace WriteFaults

def reason? (f : WriteFaults) : Option String := f.reasons f.writes

def advance (f : WriteFaults) : WriteFaults := { f with writes := f.writes + 1 }

def always (reason : Option String) : WriteFaults := ⟨fun _ => reason, 0⟩

instance : Coe (Option String) WriteFaults := ⟨always⟩

end WriteFaults

structure Machine where
  heap : Heap
  globals : FrameId
  environment : FrameId
  callDepth : Nat
  lastValue : Value
  output : String
  outputFault : WriteFaults
  clock : Clock

inductive Halt where
  | error (e : RuntimeError)
  | exhausted
  deriving DecidableEq, Repr

abbrev Run := EStateM Halt Machine

inductive Completion where
  | normal
  | returned (value : Value)
  deriving DecidableEq, Repr

def maxCallDepth : Nat := 1000

namespace Machine

def hostView (m : Machine) : HostView := ⟨m.heap.display, m.clock.seconds⟩

def addFrame (m : Machine) (parent : FrameId) : Machine :=
  { m with heap := { m.heap with frames := m.heap.frames.addChild parent } }

def define (m : Machine) (frame : FrameId) (name : String) (value : Value) : Machine :=
  { m with heap := { m.heap with frames := m.heap.frames.define frame name value } }

def addCallable (m : Machine) (c : Callable) : Machine :=
  { m with heap := { m.heap with callables := m.heap.callables.push c } }

def addClass (m : Machine) (c : Class) : Machine :=
  { m with heap := { m.heap with classes := m.heap.classes.push c } }

def addInstance (m : Machine) (i : Instance) : Machine :=
  { m with heap := { m.heap with instances := m.heap.instances.push i } }

def setField (m : Machine) (id : InstanceId) (name : String) (value : Value) : Machine :=
  { m with heap := { m.heap with
    instances := m.heap.instances.modify id.index fun i =>
      { i with fields := i.fields.insert name value } } }

end Machine

namespace Run

def fault (line : Nat) (f : RuntimeFault) : Run α := fun m => .error (.error ⟨line, f⟩) m

def exhausted : Run α := fun m => .error .exhausted m

def ofExcept : Except RuntimeError α → Run α
  | .ok a => fun m => .ok a m
  | .error e => fun m => .error (.error e) m

def environment : Run FrameId := fun m => .ok m.environment m

def findMethod? (cls : ClassId) (name : String) : Run (Option Function) :=
  fun m => .ok (m.heap.findMethod? cls name) m

def callee? (value : Value) : Run (Option Callee) := fun m => .ok (m.heap.callee? value) m

@[noinline] def newFrame (parent : FrameId) : Run FrameId :=
  fun m => .ok m.heap.frames.nextId (m.addFrame parent)

def define (frame : FrameId) (name : String) (value : Value) : Run Unit :=
  fun m => .ok () (m.define frame name value)

def defineHere (name : String) (value : Value) : Run Unit :=
  fun m => .ok () (m.define m.environment name value)

@[noinline] def newFunction (c : Callable) : Run Value :=
  fun m => .ok (.function ⟨m.heap.callables.size⟩) (m.addCallable c)

@[noinline] def newClass (c : Class) : Run Value :=
  fun m => .ok (.classObject ⟨m.heap.classes.size⟩) (m.addClass c)

@[noinline] def newInstance (cls : ClassId) : Run InstanceId :=
  fun m => .ok ⟨m.heap.instances.size⟩ (m.addInstance ⟨cls, .empty⟩)

def setField (id : InstanceId) (name : String) (value : Value) : Run Unit :=
  fun m => .ok () (m.setField id name value)

def setLast (value : Value) : Run Unit := fun m => .ok () { m with lastValue := value }

def lookUp (name : Ident) (depth : Depth) : Run Value := fun m =>
  match depth with
  | some d => ofExcept (m.heap.frames.getAt m.environment d name.name name.line) m
  | none => ofExcept (m.heap.frames.getGlobal m.globals name.name name.line) m

def holder? (name : Ident) (depth : Depth) : Run (Option FrameId) := fun m =>
  match depth with
  | some d => .ok (m.heap.frames.holder? m.environment d name.name) m
  | none => .ok (m.heap.frames.globalHolder? m.globals name.name) m

def assign (name : Ident) (value : Value) (depth : Depth) : Run Unit := do
  match ← holder? name depth with
  | some holder => define holder name.name value
  | none => fault name.line (.undefinedVariable name.name)

def write (value : Value) (line : Nat) : Run Unit := fun m =>
  let reason := m.outputFault.reason?
  let m := { m with outputFault := m.outputFault.advance }
  match reason with
  | some reason => fault line (.host ("Failed to write output: " ++ reason)) m
  | none =>
    let text := m.heap.display value
    .ok () { m with output := m.output ++ text ++ "\n" }

/-- Runs an action with another frame as the current one. The frame that was current before is current again
after, however the action ends. -/
def within (frame : FrameId) (action : Run α) : Run α := fun m =>
  let before := m.environment
  match action { m with environment := frame } with
  | .ok a m => .ok a { m with environment := before }
  | .error e m => .error e { m with environment := before }

def inNewFrame (parent : FrameId) (action : Run α) : Run α := do
  let frame ← newFrame parent
  within frame action

def counted (action : Run α) : Run α := fun m =>
  match action { m with callDepth := m.callDepth + 1 } with
  | .ok a m => .ok a { m with callDepth := m.callDepth - 1 }
  | .error e m => .error e { m with callDepth := m.callDepth - 1 }

def callNative (n : Native) (arguments : List Value) (line : Nat) : Run Value := fun m =>
  let result := n.run m.hostView arguments
  let m := { m with clock := m.clock.tick }
  match result with
  | .ok value => .ok value m
  | .error message => fault line (.host message) m

end Run
end Treewalk
