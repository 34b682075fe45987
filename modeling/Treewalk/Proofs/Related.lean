import Treewalk.Host
import Treewalk.Session

/-! Runs against runs. An action changes the current frame and the count of calls, if at all, only for as long as it
goes on; all else that a rule does with its parts is to run them one after another and inside a frame. So a relation
between runs that respects these two ways to compose them is respected by every rule. -/
namespace Treewalk

def machineAfter : EStateM.Result Halt Machine α → Machine
  | .ok _ m => m
  | .error _ m => m

structure Kept (m m' : Machine) : Prop where
  environment : m'.environment = m.environment
  callDepth : m'.callDepth = m.callDepth
  globals : m'.globals = m.globals

namespace Kept

theorem refl (m : Machine) : Kept m m := ⟨rfl, rfl, rfl⟩

theorem trans {m m' m'' : Machine} (first : Kept m m') (second : Kept m' m'') : Kept m m'' :=
  ⟨second.environment.trans first.environment, second.callDepth.trans first.callDepth,
    second.globals.trans first.globals⟩

end Kept

def Keeps (action : Run α) : Prop := ∀ m, Kept m (machineAfter (action m))

namespace Keeps

theorem bind {action : Run α} {next : α → Run β} (first : Keeps action) (second : ∀ a, Keeps (next a)) :
    Keeps (action >>= next) := by
  intro m
  have kept := first m
  change Kept m (machineAfter (EStateM.bind action next m))
  unfold EStateM.bind
  cases run : action m with
  | ok a m' =>
    rw [run] at kept
    exact kept.trans (second a m')
  | error e m' =>
    rw [run] at kept
    exact kept

theorem pure (a : α) : Keeps (pure a : Run α) := fun m => .refl m

theorem fault (line : Nat) (f : RuntimeFault) : Keeps (Run.fault (α := α) line f) := fun m => .refl m

theorem ofExcept (result : Except RuntimeError α) : Keeps (Run.ofExcept result) := by
  intro m
  cases result <;> exact .refl m

theorem lookUp (name : Ident) (depth : Depth) : Keeps (Run.lookUp name depth) := by
  intro m
  cases depth with
  | none => exact ofExcept _ m
  | some d => exact ofExcept _ m

theorem define (frame : FrameId) (name : String) (value : Value) : Keeps (Run.define frame name value) :=
  fun _ => ⟨rfl, rfl, rfl⟩

theorem assign (name : Ident) (value : Value) (depth : Depth) : Keeps (Run.assign name value depth) := by
  have looked : Keeps (Run.holder? name depth) := by
    intro m
    cases depth <;> exact .refl m
  apply looked.bind
  intro holder
  cases holder with
  | none => exact fault name.line (.undefinedVariable name.name)
  | some frame => exact define frame name.name value

theorem write (value : Value) (line : Nat) : Keeps (Run.write value line) := by
  intro m
  unfold Run.write
  dsimp only
  cases m.outputFault.reason? <;> exact ⟨rfl, rfl, rfl⟩

theorem callNative (n : Native) (arguments : List Value) (line : Nat) : Keeps (Run.callNative n arguments line) := by
  intro m
  unfold Run.callNative
  dsimp only
  cases n.run m.hostView arguments <;> exact ⟨rfl, rfl, rfl⟩

theorem environment : Keeps Run.environment := fun m => .refl m

theorem findMethod (cls : ClassId) (name : String) : Keeps (Run.findMethod? cls name) := fun m => .refl m

theorem callee (value : Value) : Keeps (Run.callee? value) := fun m => .refl m

theorem defineHere (name : String) (value : Value) : Keeps (Run.defineHere name value) := fun _ => ⟨rfl, rfl, rfl⟩

theorem setField (id : InstanceId) (name : String) (value : Value) : Keeps (Run.setField id name value) :=
  fun _ => ⟨rfl, rfl, rfl⟩

theorem setLast (value : Value) : Keeps (Run.setLast value) := fun _ => ⟨rfl, rfl, rfl⟩

theorem newFrame (parent : FrameId) : Keeps (Run.newFrame parent) := fun _ => ⟨rfl, rfl, rfl⟩

theorem newClass (c : Class) : Keeps (Run.newClass c) := fun _ => ⟨rfl, rfl, rfl⟩

theorem newInstance (cls : ClassId) : Keeps (Run.newInstance cls) := fun _ => ⟨rfl, rfl, rfl⟩

theorem newFunction (c : Callable) : Keeps (Run.newFunction c) := fun _ => ⟨rfl, rfl, rfl⟩

theorem bindMethod (f : Function) (receiver : InstanceId) : Keeps (f.bind receiver) :=
  (newFrame f.closure).bind fun frame => (define frame "this" _).bind fun _ => pure _

theorem bindParameters (frame : FrameId) (params : List Ident) (arguments : List Value) :
    Keeps (Run.bindParameters frame params arguments) := by
  induction params generalizing arguments with
  | nil => exact pure ()
  | cons param params ih =>
    cases arguments with
    | nil => exact pure ()
    | cons argument arguments => exact (define frame param.name argument).bind fun _ => ih arguments

theorem receiver (f : Function) (line : Nat) : Keeps (f.receiver line) :=
  fun m => ofExcept (m.heap.frames.getAt f.closure 0 "this" line) m

theorem instanceProperty (id : InstanceId) (name : Ident) : Keeps (Run.instanceProperty id name) := by
  intro m
  unfold Run.instanceProperty
  cases m.heap.instance? id with
  | none => exact fault name.line _ m
  | some i =>
    dsimp only
    cases i.fields.find? name.name with
    | some value => exact .refl m
    | none =>
      dsimp only
      cases m.heap.findMethod? i.cls name.name with
      | none => exact fault name.line _ m
      | some method => exact ((bindMethod method id).bind fun bound => newFunction (.function bound)) m

theorem classProperty (id : ClassId) (name : Ident) : Keeps (Run.classProperty id name) := by
  intro m
  unfold Run.classProperty
  cases m.heap.findClassMethod? id name.name with
  | none => exact fault name.line _ m
  | some method => exact newFunction (.function method) m

theorem property (object : Value) (name : Ident) : Keeps (Run.property object name) := by
  cases object with
  | instanceObject id => exact instanceProperty id name
  | classObject id => exact classProperty id name
  | _ => exact fault name.line (.noProperties _)

end Keeps

structure Congruence (rel : (α : Type) → Run α → Run α → Prop) : Prop where
  same : ∀ {α} {action : Run α}, Keeps action → rel α action action
  bind : ∀ {α β} {action other : Run α} {next otherNext : α → Run β}, rel α action other →
    (∀ a, rel β (next a) (otherNext a)) → rel β (action >>= next) (other >>= otherNext)
  within : ∀ {α} {action other : Run α} (frame : FrameId), rel α action other →
    rel α (Run.within frame action) (Run.within frame other)

structure Related (rel : (α : Type) → Run α → Run α → Prop) (r other : Evaluator) : Prop where
  eval : ∀ e, rel Value (r.eval e) (other.eval e)
  exec : ∀ s, rel Completion (r.exec s) (other.exec s)
  call : ∀ callee arguments line, rel Value (r.call callee arguments line) (other.call callee arguments line)

namespace Congruence
variable {rel : (α : Type) → Run α → Run α → Prop} (c : Congruence rel)
include c

theorem pure (a : α) : rel α (Pure.pure a) (Pure.pure a) := c.same (.pure a)

theorem next {first : Run α} {next otherNext : α → Run β} (kept : Keeps first)
    (second : ∀ a, rel β (next a) (otherNext a)) : rel β (first >>= next) (first >>= otherNext) :=
  c.bind (c.same kept) second

theorem inNewFrame {action other : Run α} (parent : FrameId) (h : rel α action other) :
    rel α (Run.inNewFrame parent action) (Run.inNewFrame parent other) :=
  c.next (.newFrame parent) fun frame => c.within frame h

theorem defineThen (name : String) (value : Value) :
    rel Completion (do Run.defineHere name value; return Completion.normal)
      (do Run.defineHere name value; return Completion.normal) :=
  c.next (.defineHere name value) fun _ => c.pure Completion.normal

variable {r other : Evaluator} (h : Related rel r other)
include h

theorem evalAll (es : List Expr) : rel _ (r.evalAll es) (other.evalAll es) := by
  induction es with
  | nil => exact c.pure []
  | cons e rest ih => exact c.bind (h.eval e) fun _ => c.bind ih fun _ => c.pure _

theorem execAll (body : List Stmt) : rel _ (r.execAll body) (other.execAll body) := by
  induction body with
  | nil => exact c.pure Completion.normal
  | cons s rest ih =>
    apply c.bind (h.exec s)
    intro completion
    cases completion with
    | normal => exact ih
    | returned value => exact c.pure (Completion.returned value)

theorem invoke (f : Function) (arguments : List Value) (line : Nat) :
    rel _ (r.invoke f arguments line) (other.invoke f arguments line) := by
  apply c.next (.newFrame f.closure)
  intro frame
  apply c.next (.bindParameters frame f.decl.params arguments)
  intro _
  apply c.bind (c.inNewFrame frame (c.execAll h f.decl.body))
  intro completion
  split
  · exact c.same (.receiver f line)
  · cases completion with
    | returned value => exact c.pure value
    | normal => exact c.pure Value.nil

theorem construct (cls : ClassId) (arguments : List Value) (line : Nat) :
    rel _ (r.construct cls arguments line) (other.construct cls arguments line) := by
  apply c.next (.newInstance cls)
  intro id
  apply c.next (.findMethod cls "init")
  intro found
  cases found with
  | none => exact c.pure (Value.instanceObject id)
  | some initializer =>
    apply c.next (.bindMethod initializer id)
    intro bound
    exact c.bind (c.invoke h bound arguments line) fun _ => c.pure (Value.instanceObject id)

theorem start (callee : Callee) (arguments : List Value) (line : Nat) :
    rel _ (r.start callee arguments line) (other.start callee arguments line) := by
  cases callee with
  | callable target =>
    cases target with
    | function f => exact c.invoke h f arguments line
    | native n => exact c.same (.callNative n arguments line)
  | construct cls => exact c.construct h cls arguments line

theorem evalRule (e : Expr) : rel _ (r.evalRule e) (other.evalRule e) := by
  cases e with
  | literal value line => exact c.pure value.toValue
  | grouping inner => exact h.eval inner
  | unary op right line => exact c.bind (h.eval right) fun value => c.same (.ofExcept (op.apply value line))
  | binary left op right line =>
    exact c.bind (h.eval left) fun a => c.bind (h.eval right) fun b => c.same (.ofExcept (op.apply a b line))
  | logical left op right line =>
    apply c.bind (h.eval left)
    intro value
    split
    · exact c.pure value
    · exact h.eval right
  | ternary condition thenBranch elseBranch line =>
    apply c.bind (h.eval condition)
    intro value
    split
    · exact h.eval thenBranch
    · exact h.eval elseBranch
  | var name depth => exact c.same (.lookUp name depth)
  | this keyword depth => exact c.same (.lookUp keyword depth)
  | assign name source depth =>
    apply c.bind (h.eval source)
    intro value
    exact c.next (.assign name value depth) fun _ => c.pure value
  | call callee arguments line =>
    apply c.bind (h.eval callee)
    intro value
    apply c.next (.callee value)
    intro target
    cases target with
    | none => exact c.same (.fault line .notCallable)
    | some target => exact c.bind (c.evalAll h arguments) fun values => h.call target values line
  | get object name => exact c.bind (h.eval object) fun value => c.same (.property value name)
  | set object name value =>
    apply c.bind (h.eval object)
    intro receiver
    cases receiver with
    | instanceObject id =>
      apply c.bind (h.eval value)
      intro value
      exact c.next (.setField id name.name value) fun _ => c.pure value
    | _ => exact c.same (.fault name.line .noFields)
  | lambda decl =>
    exact c.next .environment fun closure => c.same (.newFunction (.function ⟨decl, closure, false⟩))

theorem superclass (e : Option Expr) : rel _ (r.superclass e) (other.superclass e) := by
  cases e with
  | none => exact c.pure none
  | some e =>
    apply c.bind (h.eval e)
    intro value
    cases value with
    | classObject id => exact c.pure (some id)
    | _ => exact c.same (.fault e.line (.superclassNotClass _))

theorem declareClass (decl : ClassDecl) : rel _ (r.declareClass decl) (other.declareClass decl) := by
  apply c.bind (c.superclass h decl.superclass)
  intro superclass
  apply c.next .environment
  intro environment
  apply c.next (.newFrame environment)
  intro classFrame
  apply c.next (.newClass _)
  intro cls
  exact c.same (.defineHere decl.name.name cls)

theorem evalOption (e : Option Expr) : rel _ (r.evalOption e) (other.evalOption e) := by
  cases e with
  | none => exact c.pure Value.nil
  | some e => exact h.eval e

theorem execRule (s : Stmt) : rel _ (r.execRule s) (other.execRule s) := by
  cases s with
  | expression e =>
    apply c.bind (h.eval e)
    intro value
    exact c.next (.setLast value) fun _ => c.pure Completion.normal
  | print e =>
    exact c.bind (h.eval e) fun value => c.next (.write value e.line) fun _ => c.pure Completion.normal
  | varDecl name initializer => exact c.bind (c.evalOption h initializer) fun value => c.defineThen name.name value
  | block body =>
    exact c.next .environment fun environment => c.inNewFrame environment (c.execAll h body)
  | ifElse condition thenBranch elseBranch =>
    apply c.bind (h.eval condition)
    intro value
    split
    · exact h.exec thenBranch
    · cases elseBranch with
      | none => exact c.pure Completion.normal
      | some elseBranch => exact h.exec elseBranch
  | whileLoop condition body =>
    apply c.bind (h.eval condition)
    intro value
    split
    · apply c.bind (h.exec body)
      intro completion
      cases completion with
      | normal => exact h.exec (.whileLoop condition body)
      | returned value => exact c.pure (Completion.returned value)
    · exact c.pure Completion.normal
  | funDecl decl =>
    apply c.next .environment
    intro closure
    exact c.next (.newFunction _) fun function => c.defineThen decl.label function
  | classDecl decl => exact c.bind (c.declareClass h decl) fun _ => c.pure Completion.normal
  | returnStmt keyword value => exact c.bind (c.evalOption h value) fun value => c.pure (Completion.returned value)

theorem execProgram (program : Program) : rel _ (r.execProgram program) (other.execProgram program) := by
  induction program with
  | nil => exact c.pure ()
  | cons s rest ih => exact c.bind (h.exec s) fun _ => ih

end Congruence
end Treewalk
