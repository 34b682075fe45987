import Treewalk.Machine

/-! Functions of the host, and the machine as it is before any program ran on it. -/
namespace Treewalk

namespace Native

def clock : Native := ⟨"clock", 0, fun view _ => .ok (.number view.seconds)⟩

def fail : Native := ⟨"fail", 1, fun view arguments =>
  .error ("failed: " ++ view.display (arguments.headD .nil))⟩

def typeOf : Native := ⟨"typeOf", 1, fun _ arguments =>
  .ok (.string (arguments.headD .nil).typeTag.text)⟩

def second : Native := ⟨"second", 2, fun _ arguments => .ok (arguments.tail.headD .nil)⟩

end Native

/-- A clock that was started at a time, and goes on by a millisecond with every thousand calls. -/
def Clock.startingAt (milliseconds : Nat) : Clock :=
  ⟨fun calls => Float.ofNat (milliseconds + calls / 1000) / 1000, 0⟩

namespace Machine

def install (m : Machine) (n : Native) : Machine :=
  (m.addCallable (.native n)).define m.globals n.name (.function ⟨m.heap.callables.size⟩)

def bare (milliseconds : Nat) : Machine where
  heap := { Heap.empty with frames := Frames.empty.addRoot }
  globals := ⟨0⟩
  environment := ⟨0⟩
  callDepth := 0
  lastValue := .nil
  output := ""
  outputFault := .always none
  clock := .startingAt milliseconds

def initial (milliseconds : Nat) : Machine := (bare milliseconds).install .clock

end Machine
end Treewalk
