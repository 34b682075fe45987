import Treewalk.Proofs.Lines
import Treewalk.Proofs.Reporting
import Treewalk.Proofs.Scanned
import Treewalk.Proofs.Identity

/-! Two texts with a newline between them. A lexeme that is whole before a blank is cut in the same way whatever comes
after the blank, and layout goes on at a newline as it does at the start of a text; so the tokens of both texts are
those of the one and then those of the other, on later lines. -/
namespace Treewalk

theorem blankCases {b : Char} (blank : isBlank b = true) : b = ' ' ∨ b = '\r' ∨ b = '\t' ∨ b = '\n' := by
  simpa [isBlank, or_assoc] using blank

theorem blankNotDigit {b : Char} (blank : isBlank b = true) : b.isDigit = false := by
  rcases blankCases blank with rfl | rfl | rfl | rfl <;> rfl

theorem newlinesAppend (first second : List Char) : newlines (first ++ second) = newlines first + newlines second :=
  List.count_append

section Lexemes
variable {b : Char} (later : List Char)

theorem takeWhileSeam {p : Char → Bool} (outside : p b = false) (cs : List Char) :
    (cs ++ b :: later).takeWhile p = cs.takeWhile p := by
  induction cs with
  | nil => simp [outside]
  | cons c cs ih => simp [List.takeWhile_cons, ih]

theorem dropWhileSeam {p : Char → Bool} (outside : p b = false) (cs : List Char) :
    (cs ++ b :: later).dropWhile p = cs.dropWhile p ++ b :: later := by
  induction cs with
  | nil => simp [outside]
  | cons c cs ih =>
    simp only [List.cons_append, List.dropWhile_cons, ih]
    split <;> rfl

def Lexeme.before (l : Lexeme) (later : List Char) : Lexeme := { l with rest := l.rest ++ later }

namespace Lexeme
variable (blank : isBlank b = true)
include blank

theorem fractionSeam (cs : List Char) :
    fraction (cs ++ b :: later) = ⟨(fraction cs).text, (fraction cs).rest ++ b :: later⟩ := by
  have outside := blankNotDigit blank
  cases cs with
  | nil => rcases blankCases blank with rfl | rfl | rfl | rfl <;> rfl
  | cons c rest =>
    by_cases point : c = '.'
    · subst point
      cases rest with
      | nil => simp [fraction, outside]
      | cons d after =>
        simp only [List.cons_append, fraction]
        split
        · rw [← List.cons_append, takeWhileSeam later outside, dropWhileSeam later outside]
        · rfl
    · have plain : ∀ tail, fraction (c :: tail) = ⟨[], c :: tail⟩ := by
        intro tail
        simp [fraction, point]
      simp only [List.cons_append, plain]

theorem numberSeam (cs : List Char) : number (cs ++ b :: later) = (number cs).before (b :: later) := by
  have outside := blankNotDigit blank
  simp only [number, before, takeWhileSeam later outside, dropWhileSeam later outside, fractionSeam later blank]

theorem wordSeam (cs : List Char) : word (cs ++ b :: later) = (word cs).before (b :: later) := by
  have outside : isNamePart b = false := by rcases blankCases blank with rfl | rfl | rfl | rfl <;> rfl
  simp only [word, before, takeWhileSeam later outside, dropWhileSeam later outside]

omit blank in
theorem stringSeam {cs : List Char} {kind : Kind} (closed : (string cs).meaning = .ok kind) :
    string (cs ++ b :: later) = (string cs).before (b :: later) := by
  cases found : cs.dropWhile (· != '"') with
  | nil => simp [string, found] at closed
  | cons quote rest =>
    have dropped : (cs ++ b :: later).dropWhile (· != '"') = quote :: (rest ++ b :: later) := by
      simp [List.dropWhile_append, found]
    have taken : (cs ++ b :: later).takeWhile (· != '"') = cs.takeWhile (· != '"') := by
      have parts := congrArg List.length (List.takeWhile_append_dropWhile (p := (· != '"')) (l := cs))
      rw [List.takeWhile_append, if_neg]
      rw [found, List.length_append, List.length_cons] at parts
      omega
    simp only [string, found, dropped, taken, before]

theorem firstSeam {c : Char} {cs : List Char} {kind : Kind} (whole : (first c cs).meaning = .ok kind) :
    first c (cs ++ b :: later) = (first c cs).before (b :: later) := by
  unfold first at whole ⊢
  by_cases quote : c == '"'
  · simp only [quote, if_true] at whole ⊢
    exact stringSeam later whole
  · by_cases digit : c.isDigit
    · simp only [quote, digit, if_true] at whole ⊢
      exact numberSeam later blank (c :: cs)
    · by_cases start : isNameStart c
      · simp only [quote, digit, start, if_true] at whole ⊢
        exact wordSeam later blank (c :: cs)
      · simp only [quote, digit, start, Bool.false_eq_true, if_false]
        cases Symbol.withEqual? c with
        | none => cases Symbol.single? c <;> rfl
        | some double =>
          cases cs with
          | nil => rcases blankCases blank with rfl | rfl | rfl | rfl <;> cases Symbol.single? c <;> rfl
          | cons d rest =>
            by_cases equal : d = '='
            · subst equal
              cases Symbol.single? c <;> rfl
            · cases Symbol.single? c <;> simp [equal, before, symbol]

end Lexeme
end Lexemes

section Layout

theorem layoutBlank {c : Char} (blank : isBlank c = true) (cs : List Char) :
    layout false (c :: cs) = ⟨c :: (layout false cs).text, (layout false cs).rest⟩ := by
  rw [layout.eq_def]
  simp [blank]

theorem layoutComment (c : Char) (cs : List Char) :
    layout true (c :: cs) = ⟨c :: (layout (c != '\n') cs).text, (layout (c != '\n') cs).rest⟩ := by
  rw [layout.eq_def]
  simp

theorem layoutSlashes (cs : List Char) :
    layout false ('/' :: '/' :: cs) = ⟨'/' :: '/' :: (layout true cs).text, (layout true cs).rest⟩ := by
  rw [layout.eq_def]
  simp [isBlank]

theorem layoutNone {c : Char} {cs : List Char} (solid : ¬ isBlank c = true)
    (code : ∀ after, c = '/' → cs = '/' :: after → False) : layout false (c :: cs) = ⟨[], c :: cs⟩ := by
  unfold layout
  simp only [Bool.false_eq_true, if_false, solid]

theorem layoutThrough (later : List Char) {inComment : Bool} {cs : List Char} (all : (layout inComment cs).rest = []) :
    layout inComment (cs ++ '\n' :: later) = ⟨cs ++ '\n' :: (layout false later).text, (layout false later).rest⟩ := by
  fun_induction layout inComment cs with
  | case1 inComment => cases inComment <;> rfl
  | case2 c cs tail ih => rw [List.cons_append, layoutComment, ih all, List.cons_append]
  | case3 inComment c cs outside blank tail ih =>
    simp only [Bool.not_eq_true] at outside
    rw [outside, List.cons_append, layoutBlank blank, ih all, List.cons_append]
  | case4 inComment outside after _ tail ih =>
    simp only [Bool.not_eq_true] at outside
    rw [outside, List.cons_append, List.cons_append, layoutSlashes, ih all, List.cons_append, List.cons_append]
  | case5 => cases all

theorem layoutBefore {b : Char} (blank : isBlank b = true) (later : List Char) {inComment : Bool} {cs : List Char}
    (more : (layout inComment cs).rest ≠ []) : layout inComment (cs ++ b :: later) =
      ⟨(layout inComment cs).text, (layout inComment cs).rest ++ b :: later⟩ := by
  fun_induction layout inComment cs with
  | case1 inComment => exact absurd rfl more
  | case2 c cs tail ih => rw [List.cons_append, layoutComment, ih more]
  | case3 inComment c cs outside blank tail ih =>
    simp only [Bool.not_eq_true] at outside
    rw [outside, List.cons_append, layoutBlank blank, ih more]
  | case4 inComment outside after _ tail ih =>
    simp only [Bool.not_eq_true] at outside
    rw [outside, List.cons_append, List.cons_append, layoutSlashes, ih more]
  | case5 inComment c cs outside solid code =>
    simp only [Bool.not_eq_true] at outside
    rw [outside, List.cons_append, layoutNone solid]
    · intro after slash same
      cases cs with
      | nil =>
        cases same
        simp [isBlank] at blank
      | cons d rest =>
        cases same
        exact code rest slash rfl

end Layout

section Scanning

theorem scanFromEnd (line : Nat) {cs : List Char} (all : (layout false cs).rest = []) :
    scanFrom line cs = [.token ⟨.eof, "", line + newlines (layout false cs).text⟩] := by
  rw [scanFrom.eq_def]
  dsimp only
  split
  · rfl
  · rename_i found
    cases all.symm.trans found

theorem scanFromFirst (line : Nat) {cs rest : List Char} {c : Char} (found : (layout false cs).rest = c :: rest) :
    scanFrom line cs =
      Item.ofLexeme (.first c rest) (line + newlines (layout false cs).text + newlines (Lexeme.first c rest).text) ::
        scanFrom (line + newlines (layout false cs).text + newlines (Lexeme.first c rest).text)
          (Lexeme.first c rest).rest := by
  rw [scanFrom.eq_def]
  dsimp only
  split
  · rename_i all
    cases all.symm.trans found
  · rename_i other
    cases other.symm.trans found
    rfl

theorem scanFromLayout {line line' : Nat} {cs cs' : List Char} (rest : (layout false cs).rest = (layout false cs').rest)
    (lines : line + newlines (layout false cs).text = line' + newlines (layout false cs').text) :
    scanFrom line cs = scanFrom line' cs' := by
  cases found : (layout false cs').rest with
  | nil => rw [scanFromEnd line (rest.trans found), scanFromEnd line' found, lines]
  | cons c after => rw [scanFromFirst line (rest.trans found), scanFromFirst line' found, lines]

def Item.mapLine (f : Nat → Nat) : Item → Item
  | .token t => .token (t.mapLine f)
  | .error e => .error { e with line := f e.line }

theorem ofLexemeMoved (f : Nat → Nat) (l : Lexeme) (line : Nat) :
    (Item.ofLexeme l line).mapLine f = Item.ofLexeme l (f line) := by
  unfold Item.ofLexeme
  cases l.meaning <;> rfl

theorem scanFromMoved (count line : Nat) (cs : List Char) :
    scanFrom (line + count) cs = (scanFrom line cs).map (Item.mapLine (· + count)) := by
  fun_induction scanFrom line cs with
  | case1 line cs gap start all =>
    rw [scanFromEnd (line + count) all, Nat.add_right_comm]
    rfl
  | case2 line cs gap start c rest found l stop ih =>
    have lines : line + count + newlines gap.text + newlines l.text = stop + count := by omega
    rw [scanFromFirst (line + count) found, lines, ih, List.map_cons, ofLexemeMoved]

theorem scanFromSeam (later : List Char) {line : Nat} {cs : List Char}
    (clean : (scanFrom line cs).filterMap Item.error? = []) :
    ∃ items last, scanFrom line cs = items ++ [.token last] ∧
      scanFrom line (cs ++ '\n' :: later) = items ++ scanFrom (line + newlines cs + 1) later := by
  fun_induction scanFrom line cs with
  | case1 line cs gap start all =>
    refine ⟨[], _, rfl, ?_⟩
    have through := layoutThrough later all
    apply scanFromLayout
    · rw [through]
    · rw [through, newlinesAppend]
      simp only [newlines, List.count_cons_self]
      omega
  | case2 line cs gap start c rest found l stop ih =>
    cases meaning : l.meaning with
    | error fault => simp [Item.ofLexeme, meaning, Item.error?] at clean
    | ok kind =>
      have noError : (Item.ofLexeme l stop).error? = none := by simp [Item.ofLexeme, meaning, Item.error?]
      rw [List.filterMap_cons_none noError] at clean
      obtain ⟨items, last, same, joined⟩ := ih clean
      have before := layoutBefore (b := '\n') rfl later (found.symm ▸ List.cons_ne_nil c rest)
      have found' : (layout false (cs ++ '\n' :: later)).rest = c :: (rest ++ '\n' :: later) := by
        rw [before, found]
        rfl
      have lines : stop + newlines l.rest = line + newlines cs := by
        have whole : newlines gap.text + newlines (c :: rest) = newlines cs := by
          rw [← newlinesAppend, ← found]
          exact congrArg newlines (layoutAppend false cs)
        have parts : newlines l.text + newlines l.rest = newlines (c :: rest) := by
          rw [← newlinesAppend]
          exact congrArg newlines (Lexeme.firstAppend c rest)
        omega
      refine ⟨Item.ofLexeme l stop :: items, last, congrArg (Item.ofLexeme l stop :: ·) same, ?_⟩
      rw [scanFromFirst line found', Lexeme.firstSeam later rfl meaning, before]
      rw [lines] at joined
      exact congrArg (Item.ofLexeme l stop :: ·) joined

end Scanning

theorem sourceExact {source : String} {program : Program} : Source.program source = .ok program ↔
    lexicalErrors source = [] ∧ Grammar.Program (scannedOnly source) program := by
  by_cases clean : lexicalErrors source = []
  · have ends := (sourceTokens (tokensClean clean)).1
    have parsed : Source.program source = .ok program ↔ parseProgram (scannedOnly source) = .ok program := by
      cases accepted : parseProgram (scannedOnly source) <;>
        simp [Source.program, tokensClean clean, bind, Except.bind, accepted]
    rw [parsed]
    exact ⟨fun accepted => ⟨clean, programSound ends accepted⟩, fun h => programComplete h.2⟩
  · simp [Source.program, tokensFaulty clean, bind, Except.bind, clean]

theorem errorsMoved (f : Nat → Nat) (items : List Item) (clean : items.filterMap Item.error? = []) :
    (items.map (Item.mapLine f)).filterMap Item.error? = [] := by
  simp only [List.filterMap_eq_nil_iff, List.forall_mem_map] at clean ⊢
  intro item member
  cases item with
  | token t => rfl
  | error e => cases clean _ member

theorem tokensMoved (f : Nat → Nat) (items : List Item) :
    (items.map (Item.mapLine f)).filterMap Item.token? = (items.filterMap Item.token?).map (Token.mapLine f) := by
  rw [List.filterMap_map, List.map_filterMap]
  congr 1
  funext item
  cases item <;> rfl

theorem scanJoined {first : String} (clean : lexicalErrors first = []) (second : String) :
    ∃ items last, scan first = items ++ [.token last] ∧ scan (first ++ "\n" ++ second) =
      items ++ (scan second).map (Item.mapLine (· + (1 + newlines first.toList))) := by
  obtain ⟨items, last, same, joined⟩ := scanFromSeam second.toList clean
  have text : (first ++ "\n" ++ second).toList = first.toList ++ '\n' :: second.toList := by simp
  have lines : 1 + newlines first.toList + 1 = 1 + (1 + newlines first.toList) := by omega
  rw [lines, scanFromMoved, ← text] at joined
  exact ⟨items, last, same, joined⟩

/- Whatever the first text ends with, a comment without its newline among others, and whatever the second begins
with. -/
theorem joinedTextParsed {first second : String} {program later : Program}
    (one : Source.program first = .ok program) (two : Source.program second = .ok later) :
    Source.program (first ++ "\n" ++ second) =
      .ok (program ++ Stmt.mapLinesAll (· + (1 + newlines first.toList)) later) := by
  rw [sourceExact] at one two ⊢
  obtain ⟨clean, parsed⟩ := one
  obtain ⟨clean', parsed'⟩ := two
  obtain ⟨items, last, same, joined⟩ := scanJoined clean second
  unfold lexicalErrors at clean clean' ⊢
  unfold scannedOnly at parsed parsed' ⊢
  rw [same, List.filterMap_append] at clean parsed
  rw [joined, List.filterMap_append, List.filterMap_append, tokensMoved, errorsMoved _ _ clean']
  constructor
  · rw [(List.append_eq_nil_iff.mp clean).1]
    rfl
  · exact Grammar.programAppend parsed (Grammar.programMoved _ parsed')

def openText : String := "var a = \"x\ny\"; // b"

def branchText : String := "if (a)\nprint a;"

theorem openTextParsed : Source.program openText = .ok [.varDecl ⟨"a", 1⟩ (some (.literal (.string "x\ny") 2))] :=
  readAs (by decide +kernel)

theorem branchTextParsed : Source.program branchText =
    .ok [.ifElse (.var ⟨"a", 1⟩ none) (.print (.var ⟨"a", 2⟩ none)) none] := readAs (by decide +kernel)

theorem openTextJoined : Source.program openText = .ok [.varDecl ⟨"a", 1⟩ (some (.literal (.string "x\ny") 2))] ∧
    Source.program branchText = .ok [.ifElse (.var ⟨"a", 1⟩ none) (.print (.var ⟨"a", 2⟩ none)) none] ∧
    Source.program (openText ++ "\n" ++ branchText) =
      .ok [.varDecl ⟨"a", 1⟩ (some (.literal (.string "x\ny") 2)),
        .ifElse (.var ⟨"a", 3⟩ none) (.print (.var ⟨"a", 4⟩ none)) none] :=
  ⟨openTextParsed, branchTextParsed, joinedTextParsed openTextParsed branchTextParsed⟩

end Treewalk
