import Treewalk.Machine

/-! Evaluation. `Evaluator` holds the three judgements on phrases; a rule says how a phrase is run when its
parts are run by a given evaluator, and `evaluator n` ties the knot for runs that nest phrases, calls and
repetitions of loops at most `n` deep. -/
namespace Treewalk

def Literal.toValue : Literal → Value
  | .number value => .number value
  | .string contents => .string contents
  | .bool value => .bool value
  | .nil => .nil

def UnaryOp.apply (op : UnaryOp) (right : Value) (line : Nat) : Except RuntimeError Value :=
  match op, right with
  | .not, right => .ok (.bool (!right.isTruthy))
  | .negate, .number x => .ok (.number (-x))
  | .negate, right => .error ⟨line, .operandNotNumber right.typeTag⟩

def BinaryOp.onNumbers (op : BinaryOp) (a b : Float) : Value :=
  match op with
  | .add => .number (a + b)
  | .subtract => .number (a - b)
  | .multiply => .number (a * b)
  | .divide => .number (a / b)
  | .equal => .bool (a == b)
  | .notEqual => .bool (a != b)
  | .less => .bool (a < b)
  | .lessEqual => .bool (a ≤ b)
  | .greater => .bool (b < a)
  | .greaterEqual => .bool (b ≤ a)

def BinaryOp.apply (op : BinaryOp) (left right : Value) (line : Nat) : Except RuntimeError Value :=
  match op, left, right with
  | .equal, left, right => .ok (.bool (left.equals right))
  | .notEqual, left, right => .ok (.bool (!left.equals right))
  | .add, .string a, .string b => .ok (.string (a ++ b))
  | op, .number a, .number b => .ok (op.onNumbers a b)
  | .add, left, right => .error ⟨line, .operandsNotAddable left.typeTag right.typeTag⟩
  | _, left, right => .error ⟨line, .operandsNotNumbers left.typeTag right.typeTag⟩

def LogicalOp.decidedBy (op : LogicalOp) (left : Value) : Bool :=
  match op with
  | .or => left.isTruthy
  | .and => !left.isTruthy

structure Evaluator where
  eval : Expr → Run Value
  exec : Stmt → Run Completion
  call : Callee → List Value → Nat → Run Value

/-- The methods of a class by name; of two with one name the later counts. -/
def methodTable (closure : FrameId) (isInitializer : FunctionDecl → Bool) (decls : List FunctionDecl) :
    Table Function :=
  decls.foldl (fun table decl => table.insert decl.label ⟨decl, closure, isInitializer decl⟩) .empty

def Function.bind (f : Function) (receiver : InstanceId) : Run Function := do
  let frame ← Run.newFrame f.closure
  Run.define frame "this" (.instanceObject receiver)
  return { f with closure := frame }

def Function.receiver (f : Function) (line : Nat) : Run Value := fun m =>
  Run.ofExcept (m.heap.frames.getAt f.closure 0 "this" line) m

def Function.bound (f : Function) (receiver : InstanceId) : Run Value := do
  let bound ← f.bind receiver
  Run.newFunction (.function bound)

def Run.instanceProperty (id : InstanceId) (name : Ident) : Run Value := fun m =>
  match m.heap.instance? id with
  | none => Run.fault name.line (.undefinedProperty name.name) m
  | some i =>
    match i.fields.find? name.name with
    | some value => .ok value m
    | none =>
      match m.heap.findMethod? i.cls name.name with
      | some method => method.bound id m
      | none => Run.fault name.line (.undefinedProperty name.name) m

def Run.classProperty (id : ClassId) (name : Ident) : Run Value := fun m =>
  match m.heap.findClassMethod? id name.name with
  | some method => Run.newFunction (.function method) m
  | none => Run.fault name.line (.undefinedProperty name.name) m

def Run.property (object : Value) (name : Ident) : Run Value :=
  match object with
  | .instanceObject id => Run.instanceProperty id name
  | .classObject id => Run.classProperty id name
  | other => Run.fault name.line (.noProperties other.typeTag)

def Run.bindParameters (frame : FrameId) : List Ident → List Value → Run Unit
  | param :: params, argument :: arguments => do
    Run.define frame param.name argument
    Run.bindParameters frame params arguments
  | _, _ => return ()

namespace Evaluator

def evalAll (r : Evaluator) : List Expr → Run (List Value)
  | [] => return []
  | e :: rest => return (← r.eval e) :: (← r.evalAll rest)

def execAll (r : Evaluator) : List Stmt → Run Completion
  | [] => return .normal
  | s :: rest => do
    match ← r.exec s with
    | .normal => r.execAll rest
    | .returned value => return .returned value

/-- Runs the body of a function on as many arguments as it has parameters. An initializer gives its receiver,
whatever its body returns. -/
def invoke (r : Evaluator) (f : Function) (arguments : List Value) (line : Nat) : Run Value := do
  let frame ← Run.newFrame f.closure
  Run.bindParameters frame f.decl.params arguments
  let completion ← Run.inNewFrame frame (r.execAll f.decl.body)
  if f.isInitializer then f.receiver line
  else match completion with
    | .returned value => return value
    | .normal => return .nil

def construct (r : Evaluator) (cls : ClassId) (arguments : List Value) (line : Nat) : Run Value := do
  let id ← Run.newInstance cls
  match ← Run.findMethod? cls "init" with
  | some initializer =>
    let bound ← initializer.bind id
    let _ ← r.invoke bound arguments line
    return .instanceObject id
  | none => return .instanceObject id

def start (r : Evaluator) (callee : Callee) (arguments : List Value) (line : Nat) : Run Value :=
  match callee with
  | .callable (.function f) => r.invoke f arguments line
  | .callable (.native n) => Run.callNative n arguments line
  | .construct cls => r.construct cls arguments line

@[inline] def callRule (r : Evaluator) (callee : Callee) (arguments : List Value) (line : Nat) :
    Run Value := fun m =>
  let arity := m.heap.arity callee
  if arguments.length ≠ arity then
    Run.fault line (.arityMismatch arity arguments.length) m
  else if m.callDepth ≥ maxCallDepth then
    Run.fault line (.stackOverflow maxCallDepth) m
  else Run.counted (r.start callee arguments line) m

@[inline] def evalRule (r : Evaluator) : Expr → Run Value
  | .literal value _ => return value.toValue
  | .grouping inner => r.eval inner
  | .unary op right line => do
    let right ← r.eval right
    Run.ofExcept (op.apply right line)
  | .binary left op right line => do
    let left ← r.eval left
    let right ← r.eval right
    Run.ofExcept (op.apply left right line)
  | .logical left op right _ => do
    let left ← r.eval left
    if op.decidedBy left then return left else r.eval right
  | .ternary condition thenBranch elseBranch _ => do
    let condition ← r.eval condition
    if condition.isTruthy then r.eval thenBranch else r.eval elseBranch
  | .var name depth => Run.lookUp name depth
  | .this keyword depth => Run.lookUp keyword depth
  | .assign name value depth => do
    let value ← r.eval value
    Run.assign name value depth
    return value
  | .call callee arguments line => do
    let callee ← r.eval callee
    match ← Run.callee? callee with
    | some callee =>
      let arguments ← r.evalAll arguments
      r.call callee arguments line
    | none => Run.fault line .notCallable
  | .get object name => do
    let object ← r.eval object
    Run.property object name
  | .set object name value => do
    match ← r.eval object with
    | .instanceObject id =>
      let value ← r.eval value
      Run.setField id name.name value
      return value
    | _ => Run.fault name.line .noFields
  | .lambda decl => do
    let closure ← Run.environment
    Run.newFunction (.function ⟨decl, closure, false⟩)

def superclass (r : Evaluator) : Option Expr → Run (Option ClassId)
  | none => return none
  | some e => do
    match ← r.eval e with
    | .classObject id => return some id
    | other => Run.fault e.line (.superclassNotClass other.typeTag)

/-- Methods of instances close over the current frame, those of the class over an empty frame inside it. -/
def declareClass (r : Evaluator) (decl : ClassDecl) : Run Unit := do
  let superclass ← r.superclass decl.superclass
  let environment ← Run.environment
  let classFrame ← Run.newFrame environment
  let cls ← Run.newClass
    { name := decl.name.name
      superclass := superclass
      methods := methodTable environment FunctionDecl.isInitializer decl.methods
      classMethods := methodTable classFrame (fun _ => false) decl.classMethods }
  Run.defineHere decl.name.name cls

def evalOption (r : Evaluator) : Option Expr → Run Value
  | some e => r.eval e
  | none => return .nil

@[inline] def execRule (r : Evaluator) : Stmt → Run Completion
  | .expression e => do
    let value ← r.eval e
    Run.setLast value
    return .normal
  | .print e => do
    let value ← r.eval e
    Run.write value e.line
    return .normal
  | .varDecl name initializer => do
    let value ← r.evalOption initializer
    Run.defineHere name.name value
    return .normal
  | .block body => do
    let environment ← Run.environment
    Run.inNewFrame environment (r.execAll body)
  | .ifElse condition thenBranch elseBranch => do
    let condition ← r.eval condition
    if condition.isTruthy then r.exec thenBranch
    else match elseBranch with
      | some elseBranch => r.exec elseBranch
      | none => return .normal
  | .whileLoop condition body => do
    let test ← r.eval condition
    if test.isTruthy then
      match ← r.exec body with
      | .normal => r.exec (.whileLoop condition body)
      | .returned value => return .returned value
    else return .normal
  | .funDecl decl => do
    let closure ← Run.environment
    let function ← Run.newFunction (.function ⟨decl, closure, false⟩)
    Run.defineHere decl.label function
    return .normal
  | .classDecl decl => do
    r.declareClass decl
    return .normal
  | .returnStmt _ value => do
    let value ← r.evalOption value
    return .returned value

end Evaluator

mutual

def evalUpTo : Nat → Expr → Run Value
  | 0, _ => Run.exhausted
  | n + 1, e => Evaluator.evalRule ⟨evalUpTo n, execUpTo n, callUpTo n⟩ e

def execUpTo : Nat → Stmt → Run Completion
  | 0, _ => Run.exhausted
  | n + 1, s => Evaluator.execRule ⟨evalUpTo n, execUpTo n, callUpTo n⟩ s

def callUpTo : Nat → Callee → List Value → Nat → Run Value
  | 0, _, _, _ => Run.exhausted
  | n + 1, callee, arguments, line =>
    Evaluator.callRule ⟨evalUpTo n, execUpTo n, callUpTo n⟩ callee arguments line

end

def evaluator (n : Nat) : Evaluator := ⟨evalUpTo n, execUpTo n, callUpTo n⟩

end Treewalk
