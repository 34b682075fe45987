import Treewalk.Proofs.Lexical.Reports
import Treewalk.Proofs.Scanned

/-! The diagnostics of a program are its static violations, each once, in the order of the tree. The proof goes down
the tree: what is reported inside a phrase is what is reported at the phrase and inside its parts. -/
namespace Treewalk

open Walk

section Sizes

noncomputable def Phrase.size : Phrase → Nat
  | .program body => 1 + sizeOf body
  | .stmt s => sizeOf s
  | .expr e => sizeOf e
  | .function _ decl => sizeOf decl

theorem listedSmaller {body : List Stmt} {part : Phrase} (member : part ∈ body.map Phrase.stmt) :
    part.size < sizeOf body := by
  obtain ⟨s, inBody, rfl⟩ := List.mem_map.mp member
  exact List.sizeOf_lt_of_mem inBody

theorem Expr.partsSmaller {e part : Expr} (member : part ∈ e.parts) : sizeOf part < sizeOf e := by
  cases e with
  | call callee arguments line =>
    obtain rfl | argument := List.mem_cons.mp member
    · simp only [Expr.call.sizeOf_spec]
      omega
    · have smaller := List.sizeOf_lt_of_mem argument
      simp only [Expr.call.sizeOf_spec]
      omega
  | binary left op right line =>
    simp only [Expr.parts, List.mem_cons, List.not_mem_nil, or_false] at member
    simp only [Expr.binary.sizeOf_spec]
    obtain rfl | rfl := member <;> omega
  | logical left op right line =>
    simp only [Expr.parts, List.mem_cons, List.not_mem_nil, or_false] at member
    simp only [Expr.logical.sizeOf_spec]
    obtain rfl | rfl := member <;> omega
  | ternary condition thenBranch elseBranch line =>
    simp only [Expr.parts, List.mem_cons, List.not_mem_nil, or_false] at member
    simp only [Expr.ternary.sizeOf_spec]
    obtain rfl | rfl | rfl := member <;> omega
  | set object name value =>
    simp only [Expr.parts, List.mem_cons, List.not_mem_nil, or_false] at member
    simp only [Expr.set.sizeOf_spec]
    obtain rfl | rfl := member <;> omega
  | unary op right line =>
    cases List.mem_singleton.mp member
    simp only [Expr.unary.sizeOf_spec]
    omega
  | grouping inner =>
    cases List.mem_singleton.mp member
    simp only [Expr.grouping.sizeOf_spec]
    omega
  | assign name value depth =>
    cases List.mem_singleton.mp member
    simp only [Expr.assign.sizeOf_spec]
    omega
  | get object name =>
    cases List.mem_singleton.mp member
    simp only [Expr.get.sizeOf_spec]
    omega
  | _ => cases member

theorem itemSmaller {phrase part : Phrase} (member : part ∈ phrase.items) : part.size < phrase.size := by
  cases phrase with
  | program body => exact Nat.lt_add_left 1 (listedSmaller member)
  | function kind decl =>
    obtain ⟨name, params, body, line⟩ := decl
    have smaller : part.size < sizeOf body := listedSmaller member
    have whole : sizeOf body < (Phrase.function kind ⟨name, params, body, line⟩).size := by
      simp only [Phrase.size, FunctionDecl.mk.sizeOf_spec]
      omega
    exact Nat.lt_trans smaller whole
  | expr e =>
    obtain ⟨part, inParts, rfl⟩ := List.mem_map.mp member
    exact Expr.partsSmaller inParts
  | stmt s =>
    cases s with
    | block body =>
      have smaller : part.size < sizeOf body := listedSmaller member
      have whole : sizeOf body < (Phrase.stmt (.block body)).size := by
        simp only [Phrase.size, Stmt.block.sizeOf_spec]
        omega
      exact Nat.lt_trans smaller whole
    | ifElse condition thenBranch elseBranch =>
      cases elseBranch with
      | none =>
        simp only [Phrase.items, List.mem_cons, List.not_mem_nil, or_false] at member
        obtain rfl | rfl := member <;> simp only [Phrase.size, Stmt.ifElse.sizeOf_spec] <;> omega
      | some elseBranch =>
        simp only [Phrase.items, List.mem_cons, List.not_mem_nil, or_false] at member
        obtain rfl | rfl | rfl := member <;>
          simp only [Phrase.size, Stmt.ifElse.sizeOf_spec, Option.some.sizeOf_spec] <;> omega
    | whileLoop condition body =>
      simp only [Phrase.items, List.mem_cons, List.not_mem_nil, or_false] at member
      obtain rfl | rfl := member <;> simp only [Phrase.size, Stmt.whileLoop.sizeOf_spec] <;> omega
    | returnStmt keyword value =>
      cases value with
      | none => cases member
      | some value =>
        cases List.mem_singleton.mp member
        simp only [Phrase.size, Stmt.returnStmt.sizeOf_spec, Option.some.sizeOf_spec]
        omega
    | expression value =>
      cases List.mem_singleton.mp member
      simp only [Phrase.size, Stmt.expression.sizeOf_spec]
      omega
    | print value =>
      cases List.mem_singleton.mp member
      simp only [Phrase.size, Stmt.print.sizeOf_spec]
      omega
    | _ => cases member

theorem childSmaller {phrase part : Phrase} {step : Step} (child : phrase.child? step = some part) :
    part.size < phrase.size := by
  obtain ⟨_, inside⟩ := childInside child
  cases inside with
  | item => exact itemSmaller (List.mem_of_getElem? child)
  | initializer =>
    simp only [Phrase.size, Stmt.varDecl.sizeOf_spec, Option.some.sizeOf_spec]
    omega
  | declared =>
    simp only [Phrase.size, Stmt.funDecl.sizeOf_spec]
    omega
  | lambda =>
    simp only [Phrase.size, Expr.lambda.sizeOf_spec]
    omega
  | superclass =>
    simp only [Phrase.size, Stmt.classDecl.sizeOf_spec, ClassDecl.mk.sizeOf_spec, Option.some.sizeOf_spec]
    omega
  | @method decl f _ _ member =>
    obtain ⟨name, superclass, methods, classMethods⟩ := decl
    have smaller : sizeOf f < sizeOf methods := List.sizeOf_lt_of_mem (List.mem_of_getElem? member)
    simp only [Phrase.size, Stmt.classDecl.sizeOf_spec, ClassDecl.mk.sizeOf_spec]
    omega
  | @classMethod decl f _ _ member =>
    obtain ⟨name, superclass, methods, classMethods⟩ := decl
    have smaller : sizeOf f < sizeOf classMethods := List.sizeOf_lt_of_mem (List.mem_of_getElem? member)
    simp only [Phrase.size, Stmt.classDecl.sizeOf_spec, ClassDecl.mk.sizeOf_spec]
    omega

end Sizes

structure Reports (programs : List Program) (address : Address) (place : Place) (phrase : Phrase)
    (found : List (Mark × ScopeError)) : Prop where
  errors : (phrase.resolve.after place.context).errors = place.context.errors ++ found.map Prod.snd
  ordered : found.Pairwise (·.1.Before ·.1)
  exactly : ∀ mark error, (mark, error) ∈ found ↔
    Violation programs mark error ∧ ∃ inner, mark.address = inner ++ address

section Descent
variable {programs : List Program} {address : Address} {place : Place} {phrase : Phrase}

theorem violationPhrase {mark : Mark} {error : ScopeError} (violation : Violation programs mark error) :
    ∃ phrase, phraseAt programs mark.address = some phrase := by
  cases violation with
  | duplicate declares again =>
    cases declares with
    | statement here named innermost => exact ⟨_, here⟩
    | parameter here named => exact ⟨_, here⟩
  | ownInitializer here inside => exact ⟨_, here⟩
  | returnAtTopLevel here outside => exact ⟨_, here⟩
  | valueFromInitializer here around method named => exact ⟨_, here⟩
  | thisOutsideClass here outside => exact ⟨_, here⟩
  | thisInClassMethod here around => exact ⟨_, here⟩
  | inheritsFromItself here same => exact ⟨_, here⟩

theorem flowReports {before after : List ScopeError} {steps : List Step}
    (flow : Flow address place phrase before steps after) (sorted : steps.Pairwise Step.Before)
    (each : ∀ step place' part, phrase.part? address place step = some (place', part) →
      ∃ found, Reports programs (step :: address) place' part found) :
    ∃ found : List (Mark × ScopeError), after = before ++ found.map Prod.snd ∧ found.Pairwise (·.1.Before ·.1) ∧
      ∀ mark error, (mark, error) ∈ found ↔
        Violation programs mark error ∧ ∃ step ∈ steps, ∃ inner, mark.address = inner ++ step :: address := by
  induction flow with
  | done => exact ⟨[], (List.append_nil _).symm, .nil, fun mark error => iff_of_false nofun (by simp)⟩
  | @part step steps place' part errors inside rest ih =>
    obtain ⟨earlier, others⟩ := List.pairwise_cons.mp sorted
    obtain ⟨first, inPart⟩ := each step place' part inside
    obtain ⟨later, ends, ordered, exactly⟩ := ih others
    refine ⟨first ++ later, ?_, ?_, ?_⟩
    · rw [ends, inPart.errors, List.append_assoc, List.map_append]
    · refine List.pairwise_append.mpr ⟨inPart.ordered, ordered, ?_⟩
      intro one here two there
      obtain ⟨_, inner, oneAt⟩ := (inPart.exactly one.1 one.2).mp here
      obtain ⟨_, step', member, inner', twoAt⟩ := (exactly two.1 two.2).mp there
      exact .inl (.inr ⟨address, step, step', inner, inner', earlier step' member, oneAt, twoAt⟩)
    · intro mark error
      rw [List.mem_append, inPart.exactly, exactly, ← and_or_left]
      simp

theorem reportsOf (proper : ∀ p ∈ programs, Stmt.ProperAll p) {address : Address} {place : Place} {phrase : Phrase}
    (located : Located programs address place phrase) : ∃ found, Reports programs address place phrase found := by
  have parts : ∀ step place' part, phrase.part? address place step = some (place', part) →
      ∃ found, Reports programs (step :: address) place' part found := by
    intro step place' part inside
    have smaller := childSmaller (childPart inside)
    exact reportsOf proper (.part located inside)
  obtain ⟨inParts, ends, ordered, exactly⟩ :=
    flowReports (phraseFlow (locatedProper proper located)) (stepsSorted phrase) parts
  refine ⟨(phrase.own place.context).map (fun own => (⟨address, own.1⟩, own.2)) ++ inParts, ?_, ?_, ?_⟩
  · rw [ends, List.append_assoc, List.map_append, List.map_map]
    rfl
  · refine List.pairwise_append.mpr ⟨?_, ordered, ?_⟩
    · exact List.pairwise_map.mpr ((ownSorted phrase place.context).imp fun less => .inr ⟨rfl, less⟩)
    · intro one here two there
      obtain ⟨own, _, rfl⟩ := List.mem_map.mp here
      obtain ⟨_, step, _, inner, twoAt⟩ := (exactly two.1 two.2).mp there
      exact .inl (.inl ⟨inner ++ [step], by simp, by simp [twoAt]⟩)
  · intro mark error
    rw [List.mem_append, exactly]
    constructor
    · intro either
      obtain here | ⟨violation, step, _, inner, same⟩ := either
      · obtain ⟨own, member, same⟩ := List.mem_map.mp here
        cases same
        exact ⟨ownViolation proper located member, [], rfl⟩
      · exact ⟨violation, inner ++ [step], by simp [same]⟩
    · intro given
      obtain ⟨violation, inner, same⟩ := given
      obtain rfl | ⟨inner, step, rfl⟩ := List.eq_nil_or_concat inner
      · obtain ⟨markAddress, rank⟩ := mark
        cases same
        exact .inl (List.mem_map.mpr ⟨(rank, error), violationOwn proper located violation, rfl⟩)
      · right
        obtain ⟨deepest, there⟩ := violationPhrase violation
        rw [List.concat_eq_append, List.append_assoc, List.singleton_append] at same
        rw [same] at there
        obtain ⟨part, child⟩ := phraseAround (List.cons_ne_nil _ _) there
        rw [phraseChild located.phraseAt] at child
        exact ⟨violation, step, stepsComplete child, inner, same⟩
termination_by phrase.size

theorem phraseRooted (here : phraseAt programs address = some phrase) :
    ∃ inner index, address = inner ++ [.program index] ∧ index < programs.length := by
  obtain ⟨place, located⟩ := locatedAt here
  induction located with
  | program found => exact ⟨[], _, rfl, (List.getElem?_eq_some_iff.mp found).1⟩
  | part outer inside ih =>
    obtain ⟨inner, index, rfl, less⟩ := ih outer.phraseAt
    exact ⟨_ :: inner, index, rfl, less⟩

theorem programReports {program : Program} (proper : Stmt.ProperAll program) :
    ∃ found : List (Mark × ScopeError), program.resolve.2 = found.map Prod.snd ∧ found.Pairwise (·.1.Before ·.1) ∧
      ∀ mark error, (mark, error) ∈ found ↔ Violation [program] mark error := by
  have located : Located [program] [.program 0] .outermost (.program program) := .program rfl
  obtain ⟨found, reports⟩ := reportsOf (List.forall_mem_singleton.mpr proper) located
  refine ⟨found, reports.errors, reports.ordered, ?_⟩
  intro mark error
  rw [reports.exactly]
  refine and_iff_left_of_imp ?_
  intro violation
  obtain ⟨phrase, here⟩ := violationPhrase violation
  obtain ⟨inner, index, same, less⟩ := phraseRooted here
  cases Nat.lt_one_iff.mp less
  exact ⟨inner, same⟩

end Descent

/- The diagnostics are the static violations, one for each, in the order of the tree. -/
theorem diagnosticsAreViolations {source : String} {program : Program} (parsed : Source.program source = .ok program) :
    ∃ found : List (Mark × ScopeError), program.resolve.2 = found.map Prod.snd ∧ (found.map Prod.fst).Nodup ∧
      found.Pairwise (·.1.Before ·.1) ∧ ∀ mark error, (mark, error) ∈ found ↔ Violation [program] mark error := by
  obtain ⟨found, errors, ordered, exactly⟩ := programReports (sourceProper parsed)
  have distinct : (found.map Prod.fst).Nodup := by
    refine List.pairwise_map.mpr (ordered.imp fun {one two} before same => ?_)
    rw [same] at before
    exact two.1.notBefore before
  exact ⟨found, errors, distinct, ordered, exactly⟩

def faultyText : String :=
  "\x7bvar a=a; var a=a; fun f(b,b)\x7b\x7d\x7d
class A<A\x7bclass f()\x7bthis;\x7d init()\x7breturn nil;\x7d\x7d
return this;"

def faultyProgram : Program :=
  [.block [.varDecl ⟨"a", 1⟩ (some (.var ⟨"a", 1⟩ none)), .varDecl ⟨"a", 1⟩ (some (.var ⟨"a", 1⟩ none)),
    .funDecl ⟨some ⟨"f", 1⟩, [⟨"b", 1⟩, ⟨"b", 1⟩], [], 1⟩],
    .classDecl ⟨⟨"A", 2⟩, some (.var ⟨"A", 2⟩ none),
      [⟨some ⟨"init", 2⟩, [], [.returnStmt ⟨"return", 2⟩ (some (.literal .nil 2))], 2⟩],
      [⟨some ⟨"f", 2⟩, [], [.expression (.this ⟨"this", 2⟩ none)], 2⟩]⟩,
    .returnStmt ⟨"return", 3⟩ (some (.this ⟨"this", 3⟩ none))]

theorem faultyParsed : Source.program faultyText = .ok faultyProgram := readAs (by decide +kernel)

theorem faultyViolations : Source.program faultyText = .ok faultyProgram ∧
    ∃ found : List (Mark × ScopeError), found.map Prod.snd =
      [⟨1, "a", .readInOwnInitializer⟩, ⟨1, "a", .duplicateLocal⟩, ⟨1, "b", .duplicateLocal⟩,
        ⟨2, "A", .inheritsFromItself⟩, ⟨2, "return", .valueFromInitializer⟩, ⟨2, "this", .thisInClassMethod⟩,
        ⟨3, "return", .returnAtTopLevel⟩, ⟨3, "this", .thisOutsideClass⟩] ∧
      found.Pairwise (·.1.Before ·.1) ∧ ∀ mark error, (mark, error) ∈ found ↔ Violation [faultyProgram] mark error := by
  obtain ⟨found, errors, _, ordered, exactly⟩ := diagnosticsAreViolations faultyParsed
  refine ⟨faultyParsed, found, ?_, ordered, exactly⟩
  rw [← errors]
  decide

end Treewalk
