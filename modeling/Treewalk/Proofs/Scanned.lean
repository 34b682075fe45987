import Treewalk.Source
import Treewalk.Proofs.Proper
import Treewalk.Proofs.Parsing.Sound

/-! Programs of source texts. The tokens of a text end in the only end of text, the keyword alone among them is
spelled `this`, and so the trees made of them are proper. -/
namespace Treewalk

open Grammar

theorem keywordText {s : String} {keyword : Keyword} (found : Keyword.ofText? s = some keyword) :
    keyword.text = s := by
  unfold Keyword.ofText? at found
  have same := List.find?_some found
  simpa using same

theorem Lexeme.firstKind {c : Char} {cs : List Char} {kind : Kind} (meaning : (first c cs).meaning = .ok kind) :
    kind ≠ .eof ∧ ∀ line, (⟨kind, String.ofList (first c cs).text, line⟩ : Token).Spelled := by
  unfold first at meaning ⊢
  split at meaning
  · rename_i quote
    simp only [quote, if_true]
    unfold string at meaning
    split at meaning <;> cases meaning
    exact ⟨nofun, fun _ => ⟨nofun, nofun⟩⟩
  · rename_i noQuote
    simp only [noQuote]
    split at meaning
    · cases meaning
      exact ⟨nofun, fun _ => ⟨nofun, nofun⟩⟩
    · rename_i noDigit
      simp only [noDigit]
      split at meaning
      · rename_i start
        simp only [start]
        unfold word at meaning ⊢
        cases meaning
        cases found : Keyword.ofText? (String.ofList ((c :: cs).takeWhile isNamePart)) with
        | some keyword =>
          refine ⟨nofun, fun _ => ⟨nofun, fun same => ?_⟩⟩
          cases same
          exact (keywordText found).symm
        | none =>
          refine ⟨nofun, fun _ => ⟨fun _ same => ?_, nofun⟩⟩
          simp only [Bool.false_eq_true, if_false, if_true] at same
          rw [same] at found
          exact absurd found (by decide)
      · split at meaning <;> cases meaning <;> exact ⟨nofun, fun _ => ⟨nofun, nofun⟩⟩

theorem endsOnceCons {t : Token} {rest : List Token} (inner : t.kind ≠ .eof) (ends : EndsOnce rest) :
    EndsOnce (t :: rest) := by
  obtain ⟨body, last, rfl, kind, clean⟩ := ends
  exact ⟨t :: body, last, rfl, kind, List.forall_mem_cons.mpr ⟨inner, clean⟩⟩

theorem scannedTokens (line : Nat) (cs : List Char) :
    EndsOnce ((scanFrom line cs).filterMap Item.token?) ∧ Spelled ((scanFrom line cs).filterMap Item.token?) := by
  fun_induction scanFrom line cs with
  | case1 line cs gap start empty =>
    constructor
    · exact ⟨[], ⟨.eof, "", start⟩, rfl, rfl, nofun⟩
    · exact List.forall_mem_singleton.mpr ⟨nofun, nofun⟩
  | case2 line cs gap start c rest found lexeme stop ih =>
    obtain ⟨ends, spelled⟩ := ih
    cases meaning : lexeme.meaning with
    | error fault =>
      have hidden : (Item.ofLexeme lexeme stop).token? = none := by simp [Item.ofLexeme, meaning, Item.token?]
      rw [List.filterMap_cons_none hidden]
      exact ⟨ends, spelled⟩
    | ok kind =>
      have shown : (Item.ofLexeme lexeme stop).token? = some ⟨kind, String.ofList lexeme.text, stop⟩ := by
        simp [Item.ofLexeme, meaning, Item.token?]
      obtain ⟨inner, name⟩ := Lexeme.firstKind meaning
      rw [List.filterMap_cons_some shown]
      exact ⟨endsOnceCons inner ends, spelledCons.mpr ⟨name stop, spelled⟩⟩

theorem tokensScanned {source : String} {tokens : List Token} (scanned : Source.tokens source = .ok tokens) :
    tokens = (scan source).filterMap Item.token? := by
  cases errors : (scan source).filterMap Item.error? with
  | nil => simpa [Source.tokens, errors] using scanned.symm
  | cons first rest => simp [Source.tokens, errors] at scanned

theorem sourceTokens {source : String} {tokens : List Token} (scanned : Source.tokens source = .ok tokens) :
    EndsOnce tokens ∧ Spelled tokens := by
  rw [tokensScanned scanned]
  exact scannedTokens 1 source.toList

theorem sourceProper {source : String} {program : Program} (parsed : Source.program source = .ok program) :
    Stmt.ProperAll program := by
  unfold Source.program at parsed
  cases scanned : Source.tokens source with
  | error diagnostics => simp [scanned, bind, Except.bind] at parsed
  | ok tokens =>
    cases accepted : parseProgram tokens with
    | error errors => simp [scanned, bind, Except.bind, accepted] at parsed
    | ok ast =>
      have same : ast = program := by simpa [scanned, bind, Except.bind, accepted] using parsed
      subst same
      exact Stmt.madeProperAll (sourceTokens scanned).2 (programMadeOf accepted)

theorem parsedProper {programs : List Program} (parsed : ∀ p ∈ programs, ∃ source, Source.program source = .ok p) :
    ∀ p ∈ programs, Stmt.ProperAll p := by
  intro p member
  obtain ⟨source, same⟩ := parsed p member
  exact sourceProper same

end Treewalk
