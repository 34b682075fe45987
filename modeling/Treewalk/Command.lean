import Treewalk.Session
import Treewalk.Syntax.Text
import Treewalk.Syntax.Json
import Treewalk.Text.Utf8

/-! The command line without its surroundings: commands take the bytes of a file, a conversation takes lines, and
both come to what is written and an exit code. -/
namespace Treewalk

structure Written where
  stdout : String
  stderr : String
  deriving DecidableEq, Repr

namespace Written

def append (a b : Written) : Written := ⟨a.stdout ++ b.stdout, a.stderr ++ b.stderr⟩

instance : Append Written := ⟨append⟩

end Written

structure Transcript where
  exitCode : Nat
  written : Written
  deriving DecidableEq, Repr

def textLines (texts : List String) : String := String.join (texts.map (· ++ "\n"))

def Diagnostic.listing (diagnostics : List Diagnostic) : String := textLines (diagnostics.map Diagnostic.message)

def Transcript.ofStatus (status : Status) (stdout : String) (diagnostics : List Diagnostic) : Transcript :=
  ⟨status.exitCode, stdout, Diagnostic.listing diagnostics⟩

/-! Failures outside the language. -/

inductive FileFault where
  | missing
  | denied
  | other (text : String)
  deriving DecidableEq, Repr

def FileFault.message : FileFault → String
  | .missing => "No such file or directory (os error 2)"
  | .denied => "Permission denied (os error 13)"
  | .other text => text

inductive HostFailure where
  | unopened (path : String) (fault : FileFault)
  | fileNotText (path : String) (fault : Utf8.Fault)
  | inputNotText
  deriving DecidableEq, Repr

namespace HostFailure

def quotedChar (c : Char) : List Char :=
  match c with
  | '"' => ['\\', '"']
  | '\\' => ['\\', '\\']
  | '\n' => ['\\', 'n']
  | '\r' => ['\\', 'r']
  | '\t' => ['\\', 't']
  | '\x00' => ['\\', '0']
  | c =>
    if c.toNat < 0x20 ∨ c.toNat = 0x7F then ['\\', 'u', '{'] ++ Nat.toDigits 16 c.toNat ++ ['}'] else [c]

def quoted (path : String) : String := String.ofList (['"'] ++ path.toList.flatMap quotedChar ++ ['"'])

def context : HostFailure → String
  | unopened path _ => "Failed to open file " ++ quoted path
  | fileNotText path _ => "File " ++ quoted path ++ " is not valid UTF-8"
  | inputNotText => "Failed to read from stdin"

def cause : HostFailure → String
  | unopened _ fault => fault.message
  | fileNotText _ fault => fault.message
  | inputNotText => "stream did not contain valid UTF-8"

def message (f : HostFailure) : String := "Error: " ++ f.context ++ "\n\nCaused by:\n    " ++ f.cause ++ "\n"

def exitCode : Nat := 1

def transcript (f : HostFailure) : Transcript := ⟨exitCode, "", f.message⟩

end HostFailure

/-! Commands on a file. -/

inductive Command where
  | tokenize
  | parse
  | parseJson
  | evaluate
  | run
  deriving DecidableEq, Repr

namespace Command

def tokenList (source : String) : Transcript :=
  let items := scan source
  let errors := items.filterMap Item.error?
  .ofStatus (if errors.isEmpty then .ok else .compileError)
    (textLines ((items.filterMap Item.token?).map Token.text)) (errors.map .lexical)

def expressionText (source : String) : Transcript :=
  match Source.expression source with
  | .ok e => .ofStatus .ok (textLines [e.text]) []
  | .error diagnostics => .ofStatus .compileError "" diagnostics

def programJson (source : String) : Transcript :=
  match Source.program source with
  | .error diagnostics => .ofStatus .compileError "" diagnostics
  | .ok program =>
    let (resolved, errors) := program.resolve
    .ofStatus (if errors.isEmpty then .ok else .compileError) (textLines [resolved.pretty]) (errors.map .scope)

def expressionValue (limit : Nat) (source : String) (m : Machine) : Option Transcript :=
  (m.evaluateSource limit source).map fun (result, m) =>
    match result with
    | .error diagnostics => .ofStatus .compileError m.output diagnostics
    | .ok (.error e) => .ofStatus .runtimeError m.output [.runtime e]
    | .ok (.ok value) => .ofStatus .ok (m.output ++ textLines [m.heap.display value]) []

def programRun (limit : Nat) (source : String) (m : Machine) : Option Transcript :=
  (m.runSource limit source).map fun (report, m) => .ofStatus report.status m.output report.diagnostics

def onSource (limit : Nat) (command : Command) (source : String) (m : Machine) : Option Transcript :=
  match command with
  | tokenize => some (tokenList source)
  | parse => some (expressionText source)
  | parseJson => some (programJson source)
  | evaluate => expressionValue limit source m
  | run => programRun limit source m

def onFile (limit : Nat) (command : Command) (path : String) (contents : Except FileFault (List UInt8))
    (m : Machine) : Option Transcript :=
  match contents with
  | .error fault => some (HostFailure.unopened path fault).transcript
  | .ok bytes =>
    match Utf8.decode bytes with
    | .error fault => some (HostFailure.fileNotText path fault).transcript
    | .ok source => command.onSource limit source m

end Command

/-! Conversations: one program a line, all on one machine. -/
namespace Conversation

def prompt : Written := ⟨"> ", ""⟩

def farewell : Written := ⟨"\n", ""⟩

def endsInExpression (program : Program) : Bool :=
  match program.getLast? with
  | some (.expression _) => true
  | _ => false

def answer (limit : Nat) (line : String) (m : Machine) : Option (Written × Machine) :=
  match Source.program line with
  | .error diagnostics => some (⟨"", Diagnostic.listing diagnostics⟩, m)
  | .ok program => do
    let (report, m) ← m.interpret limit program
    let (output, m) := m.takeOutput
    let echo := if report.status = .ok ∧ endsInExpression program then
      textLines [m.heap.display m.lastValue] else ""
    some (⟨output ++ echo, Diagnostic.listing report.diagnostics⟩, m)

def answerBytes (limit : Nat) (line : List UInt8) (m : Machine) :
    Option (Except HostFailure Written × Machine) :=
  match Utf8.decode line with
  | .error _ => some (.error .inputNotText, m)
  | .ok text => (answer limit text m).map fun (written, m) => (.ok written, m)

/-- A line without its end, from its bytes in reverse order after a line feed was read: a carriage return before
the line feed belongs to it. -/
def closeLine : List UInt8 → List UInt8
  | 13 :: line => line.reverse
  | line => line.reverse

/-- Cuts at line feeds, with the bytes of the line so far in reverse order. A last line without a line feed is a
line if there is anything on it. -/
def linesFrom (line : List UInt8) : List UInt8 → List (List UInt8)
  | [] => if line.isEmpty then [] else [line.reverse]
  | byte :: rest =>
    if byte = 10 then closeLine line :: linesFrom [] rest else linesFrom (byte :: line) rest

def lines (bytes : List UInt8) : List (List UInt8) := linesFrom [] bytes

def continueWith (limit : Nat) (written : Written) : List (List UInt8) → Machine → Option Transcript
  | [], _ => some ⟨0, written ++ farewell⟩
  | line :: rest, m => do
    match ← answerBytes limit line m with
    | (.error failure, _) => some ⟨HostFailure.exitCode, written ++ failure.transcript.written⟩
    | (.ok reply, m) => continueWith limit (written ++ reply ++ prompt) rest m

def transcript (limit : Nat) (bytes : List UInt8) (m : Machine) : Option Transcript :=
  continueWith limit prompt (lines bytes) m

end Conversation
end Treewalk
