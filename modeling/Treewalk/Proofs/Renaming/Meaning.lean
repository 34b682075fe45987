import Treewalk.Proofs.Lexical.Diagnostics
import Treewalk.Proofs.Renaming.Carried
import Treewalk.Proofs.Reporting
import Treewalk.Proofs.Twins.Whole

/-! A local variable may have any other name that the program does not use. -/
namespace Treewalk

inductive LocalBinder (program : Program) (site : Site) (ident : Ident) : Prop where
  | declared {address initializer} (here : phraseAt [program] address = some (.stmt (.varDecl ident initializer)))
      (innermost : (enclosing [program] address).head? = some site)
  | listed {address kind decl} (here : phraseAt [program] address = some (.function kind decl))
      (named : ident ∈ decl.params) (own : site = ⟨address, .parameters⟩)

section Unique
variable {program : Program} (proper : Stmt.ProperAll program) (accepted : program.resolve.2 = [])
include proper accepted

theorem acceptedClean {mark : Mark} {error : ScopeError} : ¬ Violation [program] mark error := by
  intro violation
  obtain ⟨found, errors, _, exactly⟩ := programReports proper
  rw [accepted] at errors
  have clean : found = [] := List.map_eq_nil_iff.mp errors.symm
  have member := (exactly mark error).mpr violation
  rw [clean] at member
  exact absurd member List.not_mem_nil

theorem declaredOnce {site : Site} {mark mark' : Mark} {ident ident' : Ident} (first : Declares [program] site mark ident)
    (second : Declares [program] site mark' ident') (same : ident.name = ident'.name) : mark = mark' := by
  have properAll : ∀ p ∈ [program], Stmt.ProperAll p := List.forall_mem_singleton.mpr proper
  have notBefore : ¬ mark.Before mark' := fun before =>
    acceptedClean proper accepted (.duplicate second ⟨mark, ident, first, same, before⟩)
  have notAfter : ¬ mark'.Before mark := fun before =>
    acceptedClean proper accepted (.duplicate first ⟨mark', ident', second, same.symm, before⟩)
  obtain ⟨i, rfl, role⟩ | ⟨i, rfl, role⟩ := declaresAt properAll first
  · obtain ⟨j, rfl, _⟩ | ⟨j, rfl, role'⟩ := declaresAt properAll second
    · rcases Nat.lt_trichotomy i j with less | rfl | more
      · exact absurd (.inl (beforeItem.mpr less)) notBefore
      · rfl
      · exact absurd (.inl (beforeItem.mpr more)) notAfter
    · rcases role with role | role <;> cases role.symm.trans role'
  · obtain ⟨j, rfl, role'⟩ | ⟨j, rfl, _⟩ := declaresAt properAll second
    · rcases role' with role' | role' <;> cases role.symm.trans role'
    · rcases Nat.lt_trichotomy i j with less | rfl | more
      · exact absurd (.inr ⟨rfl, less⟩) notBefore
      · rfl
      · exact absurd (.inr ⟨rfl, more⟩) notAfter

theorem LocalBinder.sole {r : Renaming} {ident : Ident} (binder : LocalBinder program r.site ident)
    (named : ident.name = r.old) : r.Sole program := by
  have properAll : ∀ p ∈ [program], Stmt.ProperAll p := List.forall_mem_singleton.mpr proper
  have role : r.site.role ≠ .receiver ∧ r.site.role ≠ .classSide := by
    cases binder with
    | declared here innermost =>
      obtain ⟨_, _, role⟩ := declaredSite properAll here rfl innermost
      rcases role with role | role <;> simp [role]
    | listed here named own => simp [own]
  have elsewhere : ∀ {address phrase other}, phraseAt [program] address = some phrase → phrase.declared? = some other →
      (∀ ident initializer, phrase ≠ .stmt (.varDecl ident initializer)) →
      r.declared (enclosing [program] address) = true → other.name ≠ r.old := by
    intro address phrase other here declares notVariable inside same
    have innermost : (enclosing [program] address).head? = some r.site := by
      unfold Renaming.declared Renaming.hits at inside
      cases first : (enclosing [program] address).head? with
      | none =>
        rw [first] at inside
        cases inside
      | some site =>
        rw [first] at inside
        exact congrArg some (beq_iff_eq.mp inside)
    have also : Declares [program] r.site ⟨address, 0⟩ other := .statement here declares innermost
    cases binder with
    | declared there innermost' =>
      have mark := declaredOnce proper accepted also (.statement there rfl innermost') (same.trans named.symm)
      cases mark
      cases here.symm.trans there
      exact notVariable _ _ rfl
    | listed there named own =>
      obtain ⟨_, _, statement⟩ := declaredSite properAll here declares innermost
      rw [own] at statement
      rcases statement with statement | statement <;> cases statement
  have hits : ∀ {address role}, r.site.role ≠ role → r.hits ⟨address, role⟩ = false := by
    intro address role different
    refine beq_eq_false_iff_ne.mpr ?_
    intro same
    exact different (congrArg Site.role same).symm
  refine ⟨fun _ => hits role.1, fun _ => hits role.2, ?_, ?_⟩
  · intro address decl here inside
    obtain ⟨place, located⟩ := locatedAt here
    obtain ⟨name, params, body, line⟩ := decl
    cases name with
    | none => exact absurd rfl (locatedProper properAll located).1
    | some name => exact elsewhere here rfl (fun _ _ same => Stmt.noConfusion (Phrase.stmt.inj same)) inside
  · intro address decl here inside
    exact elsewhere here rfl (fun _ _ same => Stmt.noConfusion (Phrase.stmt.inj same)) inside

end Unique

/- The same report, up to the name of the variable where it is said to be undefined. -/
inductive Renaming.SameReport (r : Renaming) : Report → Report → Prop where
  | same {report} : r.SameReport report report
  | undefined {line} : r.SameReport ⟨.runtimeError, [.runtime ⟨line, .undefinedVariable r.old⟩]⟩
      ⟨.runtimeError, [.runtime ⟨line, .undefinedVariable r.new⟩]⟩

theorem Renaming.sameReport {r : Renaming} {result result' : Except RuntimeError Unit}
    (like : ResultLike r.spelling result result') : r.SameReport (.ofResult result) (.ofResult result') := by
  cases like with
  | ok => exact .same
  | error like =>
    cases like with
    | same => exact .same
    | @undefined name known =>
      by_cases old : name = r.old
      · subst old
        have new : r.spelling.map r.old = r.new := Equiv.swap_apply_left r.old r.new
        rw [new]
        exact .undefined
      · have kept : r.spelling.map name = name := Equiv.swap_apply_of_ne_of_ne old known
        rw [kept]
        exact .same

theorem renamedResolved {program : Program} (proper : Stmt.ProperAll program) (accepted : program.resolve.2 = [])
    {r : Renaming} (sole : r.Sole program) (fresh : r.new ∉ Stmt.wordsAll program) :
    Program.resolve (Stmt.clearedAll (Program.renamed r program.resolve.1)) = (Program.renamed r program.resolve.1, []) ∧
    Stmt.LikeAll r.spelling [] program.resolve.1 (Program.renamed r program.resolve.1) := by
  have items : ∀ i s, program[i]? = some s → Renaming.Found program (.item (0 + i) :: [.program 0]) [] (.stmt s) := by
    intro i s here
    have root : Renaming.Found program [.program 0] [] (.program program) := ⟨rfl, rfl⟩
    rw [Nat.zero_add]
    exact root.child (.item i) ((List.getElem?_map ..).trans (congrArg _ here))
  obtain ⟨goes, like⟩ := Stmt.carriedAll sole program items (c := .outermost)
    ⟨rfl, fun _ member => absurd member List.not_mem_nil⟩ proper fresh accepted
  have whole : Program.resolve (Stmt.clearedAll (Program.renamed r program.resolve.1)) =
      (Program.renamed r program.resolve.1, program.resolve.2) :=
    congrArg (fun (final : List Stmt × ScopeContext) => (final.1, final.2.errors)) goes
  rw [accepted] at whole
  exact ⟨whole, like⟩

/- A program runs as before when a local variable or a parameter is given a name that it does not use: resolution
accepts it, with the same slots, and from any machine a run prints the same and reports the same. -/
theorem renamingKeepsMeaning {source : String} {program : Program} (parsed : Source.program source = .ok program)
    (accepted : program.resolve.2 = []) (r : Renaming) {ident : Ident} (binder : LocalBinder program r.site ident)
    (named : ident.name = r.old) (fresh : r.new ∉ Stmt.wordsAll program) :
    Stmt.clearedAll program.resolve.1 = program ∧
    Program.resolve (Stmt.clearedAll (Program.renamed r program.resolve.1)) = (Program.renamed r program.resolve.1, []) ∧
    ∀ m : Machine, m.Whole → ∀ limit, Option.Rel
      (fun before after => r.SameReport before.1 after.1 ∧ after.2.output = before.2.output)
      (m.interpret limit program) (m.interpret limit (Stmt.clearedAll (Program.renamed r program.resolve.1))) := by
  have proper := sourceProper parsed
  have sole := binder.sole proper accepted named
  obtain ⟨resolved, like⟩ := renamedResolved proper accepted sole fresh
  refine ⟨Stmt.clearedResolvedAll program .outermost proper, resolved, ?_⟩
  intro m whole limit
  have ends := ((evaluatorMates r.spelling limit).execProgram (whole.twins r.spelling) whole.level like).finish
  have other := interpretAccepted (congrArg Prod.snd resolved) limit m
  rw [resolved] at other
  rw [interpretAccepted accepted, other]
  unfold Machine.runChecked
  dsimp only
  generalize ((evaluator limit).execProgram program.resolve.1).finish m = before at ends ⊢
  generalize ((evaluator limit).execProgram (Program.renamed r program.resolve.1)).finish m = after at ends ⊢
  cases ends with
  | none => exact .none
  | some both =>
    obtain ⟨results, v, kept⟩ := both
    exact .some ⟨r.sameReport results, kept.twins.output⟩

/- Three variables of one name. The last of them is read before it has a value. -/
def echoText : String :=
  "fun f(x)\x7b\x7bvar x=\"in\"; print x;\x7d return fun()\x7bx=x; return x;\x7d;\x7d print f(\"out\")();
\x7bvar x=fun()\x7breturn x;\x7d();\x7d"

def echoProgram (last : String) : Program :=
  [.funDecl ⟨some ⟨"f", 1⟩, [⟨"x", 1⟩],
    [.block [.varDecl ⟨"x", 1⟩ (some (.literal (.string "in") 1)), .print (.var ⟨"x", 1⟩ none)],
      .returnStmt ⟨"return", 1⟩ (some (.lambda ⟨none, [], [.expression (.assign ⟨"x", 1⟩ (.var ⟨"x", 1⟩ none) none),
        .returnStmt ⟨"return", 1⟩ (some (.var ⟨"x", 1⟩ none))], 1⟩))], 1⟩,
    .print (.call (.call (.var ⟨"f", 1⟩ none) [.literal (.string "out") 1] 1) [] 1),
    .block [.varDecl ⟨last, 2⟩ (some (.call (.lambda ⟨none, [],
      [.returnStmt ⟨"return", 2⟩ (some (.var ⟨last, 2⟩ none))], 2⟩) [] 2))]]

theorem echoParsed : Source.program echoText = .ok (echoProgram "x") := readAs (by decide +kernel)

def echoRenaming : Renaming := ⟨⟨[.item 2, .program 0], .block⟩, "x", "y", by decide, by decide⟩

def echoReport (last : String) : Report := ⟨.runtimeError, [.runtime ⟨2, .undefinedVariable last⟩]⟩

theorem echoRan : ((Machine.initial 0).interpret 30 (echoProgram "x")).map (fun final => (final.1, final.2.output)) =
    some (echoReport "x", "in\nout\n") := by decide +kernel

theorem echoRenamed : Stmt.clearedAll (Program.renamed echoRenaming (echoProgram "x").resolve.1) = echoProgram "y" := rfl

theorem echoKept : Source.program echoText = .ok (echoProgram "x") ∧
    Program.resolve (echoProgram "y") = (Program.renamed echoRenaming (echoProgram "x").resolve.1, []) ∧
    ((Machine.initial 0).interpret 30 (echoProgram "x")).map (fun final => (final.1, final.2.output)) =
      some (echoReport "x", "in\nout\n") ∧
    ∃ report m, (Machine.initial 0).interpret 30 (echoProgram "y") = some (report, m) ∧
      echoRenaming.SameReport (echoReport "x") report ∧ m.output = "in\nout\n" := by
  have binder : LocalBinder (echoProgram "x") echoRenaming.site ⟨"x", 2⟩ :=
    .declared (show phraseAt [echoProgram "x"] [.item 0, .item 2, .program 0] = _ from rfl) rfl
  obtain ⟨_, resolved, runs⟩ := renamingKeepsMeaning echoParsed rfl echoRenaming binder rfl (by decide)
  have both := runs (Machine.initial 0) (Machine.initialWhole 0) 30
  rw [echoRenamed] at resolved both
  refine ⟨echoParsed, resolved, echoRan, ?_⟩
  obtain ⟨⟨report, m⟩, ran, same⟩ := Option.map_eq_some_iff.mp echoRan
  obtain ⟨rfl, printed⟩ := Prod.mk.inj same
  rw [ran] at both
  generalize (Machine.initial 0).interpret 30 (echoProgram "y") = other at both
  cases both with
  | @some _ final both => exact ⟨final.1, final.2, rfl, both.1, both.2.trans printed⟩

end Treewalk
