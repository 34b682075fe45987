import Treewalk.Source
import Treewalk.Eval

/-! What a host does with a machine: running programs one after another, evaluating expressions, calling
functions. The bound on nesting is the host's; a step that does not end within it has no result. -/
namespace Treewalk

/-- A bound that no run reaches in practice. -/
def patience : Nat := 4611686018427387904

inductive Status where
  | ok
  | compileError
  | runtimeError
  deriving DecidableEq, Repr

def Status.exitCode : Status → Nat
  | .ok => 0
  | .compileError => 65
  | .runtimeError => 70

structure Report where
  status : Status
  diagnostics : List Diagnostic
  deriving DecidableEq, Repr

def Report.ofResult : Except RuntimeError Unit → Report
  | .ok () => ⟨.ok, []⟩
  | .error e => ⟨.runtimeError, [.runtime e]⟩

def Run.finish (action : Run α) (m : Machine) : Option (Except RuntimeError α × Machine) :=
  match action m with
  | .ok a m => some (.ok a, m)
  | .error (.error e) m => some (.error e, m)
  | .error .exhausted _ => none

def Evaluator.execProgram (r : Evaluator) : Program → Run Unit
  | [] => return ()
  | s :: rest => do
    let _ ← r.exec s
    r.execProgram rest

structure TraceEntry where
  outcome : Except RuntimeError Completion
  output : String
  lastValue : Value

namespace Machine

def takeOutput (m : Machine) : String × Machine := (m.output, { m with output := "" })

def global? (m : Machine) (name : String) : Option Value := m.heap.frames.get? m.globals name

def defineGlobal (m : Machine) (name : String) (value : Value) : Machine :=
  m.define m.globals name value

def interpret (limit : Nat) (program : Program) (m : Machine) : Option (Report × Machine) :=
  match program.resolve with
  | (resolved, []) =>
    (((evaluator limit).execProgram resolved).finish m).map fun (result, m) => (.ofResult result, m)
  | (_, errors) => some (⟨.compileError, errors.map .scope⟩, m)

def runSource (limit : Nat) (source : String) (m : Machine) : Option (Report × Machine) :=
  match Source.program source with
  | .ok program => m.interpret limit program
  | .error diagnostics => some (⟨.compileError, diagnostics⟩, m)

/-- Runs a source text without resolving it, so that every name is global. -/
def runUnresolved (limit : Nat) (source : String) (m : Machine) : Option (Report × Machine) :=
  match Source.program source with
  | .ok program =>
    (((evaluator limit).execProgram program).finish m).map fun (result, m) => (.ofResult result, m)
  | .error diagnostics => some (⟨.compileError, diagnostics⟩, m)

def traceProgram (limit : Nat) : Program → Machine → Option (List TraceEntry × Machine)
  | [], m => some ([], m)
  | s :: rest, m => do
    let (outcome, m) ← ((evaluator limit).exec s).finish m
    let (output, m) := m.takeOutput
    let entry := ⟨outcome, output, m.lastValue⟩
    match outcome with
    | .error _ => some ([entry], m)
    | .ok _ =>
      let (entries, m) ← traceProgram limit rest m
      some (entry :: entries, m)

def traceSource (limit : Nat) (resolving : Bool) (source : String) (m : Machine) :
    Option (Except (List Diagnostic) (List TraceEntry) × Machine) :=
  match Source.program source with
  | .error diagnostics => some (.error diagnostics, m)
  | .ok program =>
    let (resolved, errors) := if resolving then program.resolve else (program, [])
    if errors.isEmpty then (m.takeOutput.2.traceProgram limit resolved).map fun (entries, m) => (.ok entries, m)
    else some (.error (errors.map .scope), m)

def evaluate (limit : Nat) (e : Expr) (m : Machine) : Option (Except RuntimeError Value × Machine) :=
  ((evaluator limit).eval e).finish m

def evaluateSource (limit : Nat) (source : String) (m : Machine) :
    Option (Except (List Diagnostic) (Except RuntimeError Value) × Machine) :=
  match Source.resolvedExpression source with
  | .error diagnostics => some (.error diagnostics, m)
  | .ok e => (m.evaluate limit e).map fun (result, m) => (.ok result, m)

def callValue (limit : Nat) (callee : Value) (arguments : List Value) (line : Nat) (m : Machine) :
    Option (Option (Except RuntimeError Value) × Machine) :=
  match m.heap.callee? callee with
  | some callee =>
    (((evaluator limit).call callee arguments line).finish m).map fun (result, m) => (some result, m)
  | none => some (none, m)

end Machine
end Treewalk
