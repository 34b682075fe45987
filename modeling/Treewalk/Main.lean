import Std.Time.DateTime.Timestamp
import Treewalk.Command
import Treewalk.Host

/-! The command line: arguments, files, standard input and the time of day. -/
namespace Treewalk

inductive Action where
  | file (command : Command) (path : String)
  | converse
  deriving DecidableEq, Repr

structure Invocation where
  action : Action
  logging : Bool
  deriving DecidableEq, Repr

namespace Invocation

def usage : String :=
  "Usage: treewalk [--log] tokenize FILE | parse [--json] FILE | evaluate FILE | run FILE | repl\n"

def usageExitCode : UInt32 := 2

def action? : List String → Option Action
  | ["tokenize", path] => some (.file .tokenize path)
  | ["parse", "--json", path] => some (.file .parseJson path)
  | ["parse", path, "--json"] => some (.file .parseJson path)
  | ["parse", path] => some (.file .parse path)
  | ["evaluate", path] => some (.file .evaluate path)
  | ["run", path] => some (.file .run path)
  | ["repl"] => some .converse
  | _ => none

def ofArguments? (arguments : List String) : Option Invocation :=
  (action? (arguments.filter (· ≠ "--log"))).map (⟨·, arguments.contains "--log"⟩)

end Invocation

namespace Host

def write (written : Written) : IO Unit := do
  let stdout ← IO.getStdout
  stdout.putStr written.stdout
  stdout.flush
  (← IO.getStderr).putStr written.stderr

def unfinished : IO UInt32 := do
  IO.eprintln "The run did not end."
  return 1

def fileFault : IO.Error → FileFault
  | .noFileOrDirectory _ _ _ => .missing
  | .permissionDenied _ _ _ => .denied
  | e => .other (toString e)

def contents (path : String) : IO (Except FileFault (List UInt8)) := do
  try return .ok (← IO.FS.readBinFile path).data.toList
  catch e => return .error (fileFault e)

def startMachine : IO Machine := do
  return .initial (← Std.Time.Timestamp.now).toMillisecondsSinceUnixEpoch.toInt.toNat

partial def nextLine? (input : IO.FS.Stream) (line : List UInt8) : IO (Option (List UInt8)) := do
  match (← input.read 1).data.toList with
  | byte :: _ => if byte = 10 then return some (Conversation.closeLine line) else nextLine? input (byte :: line)
  | [] => return if line.isEmpty then none else some line.reverse

partial def converse (input : IO.FS.Stream) (m : Machine) : IO UInt32 := do
  write Conversation.prompt
  match ← nextLine? input [] with
  | none =>
    write Conversation.farewell
    return 0
  | some line =>
    match Conversation.answerBytes patience line m with
    | none => unfinished
    | some (.error failure, _) =>
      write failure.transcript.written
      return HostFailure.exitCode.toUInt32
    | some (.ok written, m) =>
      write written
      converse input m

def perform : Action → IO UInt32
  | .converse => do converse (← IO.getStdin) (← startMachine)
  | .file command path => do
    match command.onFile patience path (← contents path) (← startMachine) with
    | none => unfinished
    | some transcript =>
      write transcript.written
      return transcript.exitCode.toUInt32

end Host
end Treewalk

open Treewalk in
def main (arguments : List String) : IO UInt32 := do
  match Invocation.ofArguments? arguments with
  | none =>
    IO.eprint Invocation.usage
    return Invocation.usageExitCode
  | some invocation =>
    if invocation.logging then IO.FS.writeFile "app.log" ""
    Host.perform invocation.action
