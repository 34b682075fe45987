import Treewalk.Host
import Treewalk.Session
import Treewalk.Proofs.Parsing.Exact
import Treewalk.Proofs.Identity

/-! What a run of a source text reports. A text is scanned, parsed and resolved, and each phase begins only if the ones
before it found nothing wrong; so the errors that are reported come from one phase, and nothing is run before the last
of the three is done. -/
namespace Treewalk

inductive Stage where
  | lexical
  | syntactic
  | scope
  | runtime
  deriving DecidableEq, Repr

def Diagnostic.stage : Diagnostic → Stage
  | .lexical _ => .lexical
  | .syntactic _ => .syntactic
  | .scope _ => .scope
  | .runtime _ => .runtime

def lexicalErrors (source : String) : List LexicalError := (scan source).filterMap Item.error?

def scannedOnly (source : String) : List Token := (scan source).filterMap Item.token?

/- What the phases before the run come to: the errors of the first that finds any, or the program to be run. -/
inductive Checked (source : String) : Except (List Diagnostic) Program → Prop where
  | lexical (found : lexicalErrors source ≠ []) : Checked source (.error ((lexicalErrors source).map .lexical))
  | syntactic {errors} (clean : lexicalErrors source = [])
      (rejected : parseProgram (scannedOnly source) = .error errors) : Checked source (.error (errors.map .syntactic))
  | scope {program} (clean : lexicalErrors source = []) (parsed : parseProgram (scannedOnly source) = .ok program)
      (found : program.resolve.2 ≠ []) : Checked source (.error (program.resolve.2.map .scope))
  | accepted {program} (clean : lexicalErrors source = []) (parsed : parseProgram (scannedOnly source) = .ok program)
      (none : program.resolve.2 = []) : Checked source (.ok program.resolve.1)

theorem Checked.unique {source : String} {result other : Except (List Diagnostic) Program}
    (first : Checked source result) (second : Checked source other) : result = other := by
  cases first <;> cases second <;> simp_all

theorem Checked.static {source : String} {diagnostics : List Diagnostic}
    (checked : Checked source (.error diagnostics)) :
    diagnostics ≠ [] ∧ ∃ stage, stage ≠ .runtime ∧ ∀ d ∈ diagnostics, d.stage = stage := by
  cases checked with
  | lexical found =>
    refine ⟨by simpa using found, .lexical, nofun, ?_⟩
    simp [Diagnostic.stage]
  | syntactic clean rejected =>
    refine ⟨by simpa using rejectedWithErrors rejected, .syntactic, nofun, ?_⟩
    simp [Diagnostic.stage]
  | scope clean parsed found =>
    refine ⟨by simpa using found, .scope, nofun, ?_⟩
    simp [Diagnostic.stage]

theorem tokensClean {source : String} (clean : lexicalErrors source = []) :
    Source.tokens source = .ok (scannedOnly source) := by
  unfold lexicalErrors at clean
  simp [Source.tokens, clean, scannedOnly]

theorem tokensFaulty {source : String} (found : lexicalErrors source ≠ []) :
    Source.tokens source = .error ((lexicalErrors source).map .lexical) := by
  unfold lexicalErrors at found ⊢
  cases errors : (scan source).filterMap Item.error? with
  | nil => exact absurd errors found
  | cons first rest => simp [Source.tokens, errors]

def Machine.runChecked (limit : Nat) (m : Machine) :
    Except (List Diagnostic) Program → Option (Report × Machine)
  | .error diagnostics => some (⟨.compileError, diagnostics⟩, m)
  | .ok program => (((evaluator limit).execProgram program).finish m).map fun (result, m) => (.ofResult result, m)

theorem interpretAccepted {program : Program} (none : program.resolve.2 = []) (limit : Nat) (m : Machine) :
    m.interpret limit program = m.runChecked limit (.ok program.resolve.1) := by
  unfold Machine.interpret
  cases resolved : program.resolve with
  | mk tree errors =>
    rw [resolved] at none
    simp only at none
    subst none
    rfl

theorem interpretRejected {program : Program} (found : program.resolve.2 ≠ []) (limit : Nat) (m : Machine) :
    m.interpret limit program = m.runChecked limit (.error (program.resolve.2.map .scope)) := by
  unfold Machine.interpret
  cases resolved : program.resolve with
  | mk tree errors =>
    cases errors with
    | nil =>
      rw [resolved] at found
      exact absurd rfl found
    | cons first rest => rfl

theorem runSourceChecked (limit : Nat) (source : String) (m : Machine) :
    ∃ result, Checked source result ∧ m.runSource limit source = m.runChecked limit result := by
  by_cases clean : lexicalErrors source = []
  · have tokens := tokensClean clean
    cases parsed : parseProgram (scannedOnly source) with
    | error errors =>
      refine ⟨_, .syntactic clean parsed, ?_⟩
      simp [Machine.runSource, Source.program, tokens, parsed, bind, Except.bind, Machine.runChecked]
    | ok program =>
      have text : Source.program source = .ok program := by
        simp [Source.program, tokens, parsed, bind, Except.bind]
      by_cases found : program.resolve.2 = []
      · refine ⟨_, .accepted clean parsed found, ?_⟩
        simp only [Machine.runSource, text, interpretAccepted found]
      · refine ⟨_, .scope clean parsed found, ?_⟩
        simp only [Machine.runSource, text, interpretRejected found]
  · refine ⟨_, .lexical clean, ?_⟩
    simp [Machine.runSource, Source.program, tokensFaulty clean, bind, Except.bind, Machine.runChecked]

theorem runCheckedEnds {limit : Nat} {program : Program} {m m' : Machine} {report : Report}
    (ends : m.runChecked limit (.ok program) = some (report, m')) :
    report = ⟨.ok, []⟩ ∨ ∃ e, report = ⟨.runtimeError, [.runtime e]⟩ := by
  obtain ⟨⟨result, after⟩, _, same⟩ := Option.map_eq_some_iff.mp ends
  cases same
  cases result with
  | ok done => exact .inl rfl
  | error e => exact .inr ⟨e, rfl⟩

structure Faithful (before : Machine) (report : Report) (after : Machine) : Prop where
  ok : report.status = .ok → report.diagnostics = []
  compileError : report.status = .compileError → report.diagnostics ≠ [] ∧
    (∃ stage, stage ≠ .runtime ∧ ∀ d ∈ report.diagnostics, d.stage = stage) ∧ after = before
  runtimeError : report.status = .runtimeError → ∃ e, report.diagnostics = [.runtime e]

/- Whatever a text is and whatever the machine is like. The last part says when a run ends before it has begun: if one
of the three phases finds errors, and with the errors of that phase. -/
theorem runReportsFaithfully (limit : Nat) (source : String) (m : Machine) :
    (∀ report m', m.runSource limit source = some (report, m') → Faithful m report m') ∧
    (lexicalErrors source ≠ [] →
      m.runSource limit source = some (⟨.compileError, (lexicalErrors source).map .lexical⟩, m)) ∧
    ∀ diagnostics m', m.runSource limit source = some (⟨.compileError, diagnostics⟩, m') ↔
      Checked source (.error diagnostics) ∧ m' = m := by
  obtain ⟨result, checked, run⟩ := runSourceChecked limit source m
  rw [run]
  refine ⟨?_, ?_, ?_⟩
  · intro report m' ends
    cases result with
    | error diagnostics =>
      cases ends
      exact ⟨nofun, fun _ => ⟨checked.static.1, checked.static.2, rfl⟩, nofun⟩
    | ok program =>
      rcases runCheckedEnds ends with rfl | ⟨e, rfl⟩
      · exact ⟨fun _ => rfl, nofun, nofun⟩
      · exact ⟨nofun, nofun, fun _ => ⟨e, rfl⟩⟩
  · intro found
    cases checked.unique (.lexical found)
    rfl
  · intro diagnostics m'
    constructor
    · intro ends
      cases result with
      | error found =>
        cases ends
        exact ⟨checked, rfl⟩
      | ok program => rcases runCheckedEnds ends with same | ⟨e, same⟩ <;> cases same
    · rintro ⟨found, rfl⟩
      cases checked.unique found
      rfl

def mixedText : String := "@ var ;\n$"

theorem mixedErrors : lexicalErrors mixedText =
    [⟨1, .unexpectedCharacter '@'⟩, ⟨2, .unexpectedCharacter '$'⟩] := by decide +kernel

def negatedText : String := "print nil; -nil;"

theorem negatedParsed : Source.program negatedText =
    .ok [.print (.literal .nil 1), .expression (.unary .negate (.literal .nil 1) 1)] := readAs (by decide +kernel)

theorem mixedTextReported : lexicalErrors mixedText ≠ [] ∧
    (Machine.initial 0).runSource 9 mixedText = some (⟨.compileError,
      [.lexical ⟨1, .unexpectedCharacter '@'⟩, .lexical ⟨2, .unexpectedCharacter '$'⟩]⟩, .initial 0) ∧
    ∃ report m', (Machine.initial 0).runSource 9 negatedText = some (report, m') ∧ m'.output = "nil\n" ∧
      report.diagnostics = [.runtime ⟨1, .operandNotNumber .nil⟩] ∧ Faithful (.initial 0) report m' := by
  have found : lexicalErrors mixedText ≠ [] := by simp [mixedErrors]
  have mixed := (runReportsFaithfully 9 mixedText (.initial 0)).2.1 found
  rw [mixedErrors] at mixed
  have negated : (Machine.initial 0).runSource 9 negatedText =
      some (⟨.runtimeError, [.runtime ⟨1, .operandNotNumber .nil⟩]⟩,
        { Machine.initial 0 with output := "nil\n", outputFault := (Machine.initial 0).outputFault.advance }) := by
    unfold Machine.runSource
    rw [negatedParsed]
    rfl
  exact ⟨found, mixed, _, _, negated, rfl, rfl, (runReportsFaithfully 9 negatedText (.initial 0)).1 _ _ negated⟩

end Treewalk
