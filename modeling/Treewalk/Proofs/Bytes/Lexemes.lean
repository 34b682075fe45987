import Treewalk.Proofs.Bytes
import Treewalk.Proofs.Words.Pieces

/-! One scan of the scanner on bytes. From where a character starts it passes over a piece of layout or finds the lexeme
that the characters ahead start with, and stops where a character starts. -/
namespace Treewalk

theorem newlinesNone {test : Char → Bool} (stops : test '\n' = false) (cs : List Char) :
    newlines (cs.takeWhile test) = 0 := by
  refine List.count_eq_zero.mpr fun mem => ?_
  rw [List.mem_takeWhile_imp mem] at stops
  cases stops

theorem aboveClasses (c : Char) (wide : 128 ≤ c.toNat) :
    isBlank c = false ∧ c.isDigit = false ∧ isNameStart c = false ∧ isNamePart c = false := by
  have beyond {n : UInt32} (ascii : n.toNat < 128) : n < c.val :=
    UInt32.lt_iff_toNat_lt.mpr (Nat.lt_of_lt_of_le ascii wide)
  have digit : c.isDigit = false := by
    simp [Char.isDigit, beyond (n := 57) (by decide)]
  have alpha : c.isAlpha = false := by
    simp [alphaRanges, beyond (n := 90) (by decide), beyond (n := 122) (by decide)]
  have other {d : Char} (ascii : d.toNat < 128) : (c == d) = false := aboveBeq ascii c wide
  refine ⟨?_, digit, ?_, ?_⟩
  · simp only [isBlank, other (d := ' ') (by decide), other (d := '\r') (by decide), other (d := '\t') (by decide),
      other (d := '\n') (by decide), Bool.or_self]
  · simp only [isNameStart, alpha, other (d := '_') (by decide), Bool.or_self]
  · simp only [isNamePart, Char.isAlphanum, alpha, digit, other (d := '_') (by decide), Bool.or_self]

theorem aboveSymbols (c : Char) (wide : 128 ≤ c.toNat) : Symbol.single? c = none ∧ Symbol.withEqual? c = none := by
  constructor
  · unfold Symbol.single?
    split <;> first | rfl | exact absurd wide (by decide)
  · unfold Symbol.withEqual?
    split <;> first | rfl | exact absurd wide (by decide)

theorem commentLines (rest : List Char) : newlines ('/' :: '/' :: rest.takeWhile (· != '\n')) = 0 := by
  rw [newlines, List.count_cons_of_ne (by decide), List.count_cons_of_ne (by decide)]
  exact newlinesNone (by decide) rest

theorem scanFromComment (line : Nat) (rest : List Char) :
    scanFrom line ('/' :: '/' :: rest) = scanFrom line (rest.dropWhile (· != '\n')) := by
  have inner : '\n' ∉ rest.takeWhile (· != '\n') := List.count_eq_zero.mp (newlinesNone (by decide) rest)
  have stops : ∀ c ∈ (rest.dropWhile (· != '\n')).head?, c = '\n' := by
    intro c first
    have stopped := List.head?_dropWhile_not (· != '\n') rest
    rw [first] at stopped
    simpa using stopped
  have body := layoutBody inner stops
  rw [List.takeWhile_append_dropWhile] at body
  refine scanFromLayout (by rw [layoutSlashes, body]) ?_
  rw [layoutSlashes, body, ← List.cons_append, ← List.cons_append, newlinesAppend, commentLines, Nat.zero_add]

namespace Lexeme

theorem firstDouble {c : Char} {one two : Symbol} (single : Symbol.single? c = some one)
    (double : Symbol.withEqual? c = some two) (rest : List Char) : first c ('=' :: rest) = symbol two rest := by
  obtain ⟨noQuote, noDigit, noLetter⟩ := symbolPlain single
  simp only [first, noQuote, noDigit, noLetter, double, Bool.false_eq_true, if_false]

theorem firstSingle {c : Char} {one : Symbol} (single : Symbol.single? c = some one) {cs : List Char}
    (alone : Symbol.withEqual? c = none ∨ cs.head? ≠ some '=') : first c cs = symbol one cs := by
  obtain ⟨noQuote, noDigit, noLetter⟩ := symbolPlain single
  simp only [first, noQuote, noDigit, noLetter, single, Bool.false_eq_true, if_false]
  split
  · rename_i two _ found
    rcases alone with none | other
    · cases none.symm.trans found
    · exact absurd rfl other
  · rename_i same _
    cases same
    rfl
  · rename_i same _
    cases same

end Lexeme

theorem newlinesBytes (cs : List Char) : ((bytes cs).map Scanner.newlineByte).sum = newlines cs := by
  induction cs with
  | nil => rfl
  | cons c cs ih =>
    rw [bytesCons, List.map_append, List.sum_append, ih]
    by_cases newline : c = '\n'
    · subst newline
      rw [newlines, newlines, List.count_cons_self, Nat.add_comm]
      rfl
    · have none : (String.utf8EncodeChar c).map Scanner.newlineByte = (String.utf8EncodeChar c).map fun _ => 0 :=
        List.map_congr_left fun b mem => by
          have differs : (Char.ofUInt8 b == '\n') = false :=
            (tellsIs (by decide) c b mem).trans (beq_false_of_ne newline)
          simp only [Scanner.newlineByte, differs, Bool.false_eq_true, if_false]
      rw [none, List.map_const', List.sum_replicate_nat, Nat.mul_zero, Nat.zero_add, newlines, newlines,
        List.count_cons_of_ne newline]

theorem plainBytes (raw : List UInt8) : (raw.map Scanner.plainByte).sum = 0 := by
  induction raw with
  | nil => rfl
  | cons b raw ih => rw [List.map_cons, List.sum_cons, ih, Scanner.plainByte]

namespace Scanner

structure Holds (s : Scanner) (before piece later : List Char) : Prop where
  text : s.text.toList = before ++ piece ++ later
  start : s.start = (bytes before).length
  curr : s.curr = s.start + (bytes piece).length

section

variable {s : Scanner} {before piece later : List Char}

namespace Holds

theorem ahead (held : Holds s before piece later) : s.ahead = bytes later := by
  have position : s.curr = (bytes (before ++ piece)).length := by
    rw [held.curr, held.start, bytesAppend, List.length_append]
  rw [Scanner.ahead, raw, held.text, bytesAppend, position, List.drop_left]

theorem lexeme (held : Holds s before piece later) : s.lexeme = .ok (String.ofList piece) := by
  rw [Scanner.lexeme, held.curr, held.start]
  exact sliceExact held.text

theorem moved {more : List Char} (held : Holds s before piece (more ++ later)) {curr : Nat}
    (past : curr = s.curr + (bytes more).length) (line : Nat) :
    Holds { s with curr, line } before (piece ++ more) later where
  text := by
    rw [held.text]
    simp only [List.append_assoc]
  start := held.start
  curr := by
    rw [bytesAppend, List.length_append, past, held.curr, Nat.add_assoc]

theorem next {c : Char} (ascii : c.toNat < 128) (held : Holds s before piece (c :: later)) :
    ∃ b rest, s.ahead = b :: rest ∧ Char.ofUInt8 b = c ∧
      Holds { s with curr := s.curr + 1 } before (piece ++ [c]) later := by
  obtain ⟨b, encoded, same⟩ := encodedAscii ascii
  refine ⟨b, bytes later, by rw [held.ahead, bytesCons, encoded]; rfl, same, ?_⟩
  have single : (bytes [c]).length = 1 := by
    rw [bytesCons, encoded]
    rfl
  exact moved held (by rw [single]) s.line

end Holds

theorem readWhile (more : Bool → UInt8 → Bool) {test : Char → Bool} (held : Holds s before piece later)
    (tells : Tells (more false) test) (stops : more true 0 = false) (lines : UInt8 → Nat) :
    ∃ after, s.advanceWhile more lines = .ok after ∧
      Holds after before (piece ++ later.takeWhile test) (later.dropWhile test) ∧
      after.line = s.line + ((bytes (later.takeWhile test)).map lines).sum := by
  rw [advanceWhileExact more stops, held.ahead, tellsTaken tells]
  rw [← List.takeWhile_append_dropWhile (p := test) (l := later)] at held
  exact ⟨_, rfl, held.moved rfl _, rfl⟩

theorem peekTells (test : Char → Bool) (held : Holds s before piece later)
    (tells : Tells (fun b => test (Char.ofUInt8 b)) test) (stops : test (Char.ofUInt8 0) = false) :
    ∃ b, s.peek = .ok b ∧ test (Char.ofUInt8 b) = later.head?.any test := by
  refine ⟨_, peekExact s, ?_⟩
  rw [held.ahead]
  cases later with
  | nil => exact stops
  | cons c cs =>
    obtain ⟨lead, tail, encoded, -⟩ := encodedFirst c
    rw [bytesCons, encoded]
    exact tells c lead (encoded ▸ List.mem_cons_self)

theorem matchCases (expected : Char) (ascii : expected.toNat < 128) (held : Holds s before piece later) :
    (∃ rest after, later = expected :: rest ∧ s.matchByte expected = .ok (true, after) ∧
      Holds after before (piece ++ [expected]) rest ∧ after.line = s.line) ∨
      (later.head? ≠ some expected ∧ s.matchByte expected = .ok (false, s)) := by
  by_cases first : later.head? = some expected
  · obtain ⟨rest, rfl⟩ := List.head?_eq_some_iff.mp first
    obtain ⟨b, raw, next, same, after⟩ := held.next ascii
    exact .inl ⟨rest, _, rfl, matchByteFound next same, after, rfl⟩
  · refine .inr ⟨first, matchByteMissing fun b mem same => first ?_⟩
    cases later with
    | nil =>
      rw [held.ahead] at mem
      cases mem
    | cons c cs =>
      obtain ⟨lead, tail, encoded, -⟩ := encodedFirst c
      rw [held.ahead, bytesCons, encoded] at mem
      cases mem
      have told : (Char.ofUInt8 b == expected) = (c == expected) := tellsIs ascii c b (encoded ▸ List.mem_cons_self)
      rw [same, beq_self_eq_true] at told
      rw [List.head?_cons, eq_of_beq told.symm]

def Gives (s : Scanner) (run : Except AccessFault (Scanned × Scanner)) (found : Scanned) (lines : Nat)
    (before piece later : List Char) : Prop :=
  ∃ after, run = .ok (found, after) ∧ Holds after before piece later ∧ after.line = s.line + lines

def scannedOf : Except LexicalFault Kind → Scanned
  | .ok k => .kind k
  | .error f => .fault f

def GivesLexeme (s : Scanner) (run : Except AccessFault (Scanned × Scanner)) (before : List Char) (l : Lexeme) : Prop :=
  Gives s run (scannedOf l.meaning) (newlines l.text) before l.text l.rest

theorem quotedSlice {contents : List Char} (held : Holds s before (['"'] ++ contents ++ ['"']) later) :
    s.slice (s.start + 1) (s.curr - 1) = .ok (String.ofList contents) := by
  have whole : s.text.toList = (before ++ ['"']) ++ contents ++ ('"' :: later) := by
    rw [held.text]
    simp only [List.append_assoc, List.cons_append, List.nil_append]
  have first : s.start + 1 = (bytes (before ++ ['"'])).length := by
    rw [held.start, bytesAppend, List.length_append]
    rfl
  have stop : s.curr - 1 = (bytes (before ++ ['"'])).length + (bytes contents).length := by
    have quote : (bytes ['"']).length = 1 := rfl
    rw [← first, held.curr]
    simp only [bytesAppend, List.length_append, quote]
    omega
  rw [first, stop]
  exact sliceExact whole

theorem stringExact (held : Holds s before ['"'] later) : GivesLexeme s s.stringLiteral before (.string later) := by
  obtain ⟨middle, looped, inner, line⟩ :=
    readWhile (fun atEnd b => !atEnd && Char.ofUInt8 b != '"') held (tellsIsNot (by decide)) rfl newlineByte
  rw [newlinesBytes] at line
  rw [GivesLexeme, stringLiteral, looped, Lexeme.string]
  change Gives s (if middle.atEnd = true then _ else _) _ _ _ _ _
  cases rest : later.dropWhile (· != '"') with
  | nil =>
    rw [rest] at inner
    rw [if_pos (endIff.mpr inner.ahead)]
    refine ⟨middle, rfl, inner, ?_⟩
    rw [line, newlines, newlines, List.count_cons_of_ne (by decide)]
  | cons q rest' =>
    have quote : q = '"' := by
      have stopped := List.head?_dropWhile_not (· != '"') later
      rw [rest] at stopped
      simpa using stopped
    rw [rest, quote] at inner
    obtain ⟨b, raw, next, -, closed⟩ := inner.next (by decide)
    rw [notAtEnd next, if_neg Bool.false_ne_true, advanceFirst next]
    change Gives s (slice _ _ _ >>= _) _ _ _ _ _
    rw [quotedSlice closed]
    refine ⟨_, rfl, closed, ?_⟩
    change middle.line = _
    rw [line, newlines, newlines, List.cons_append, List.count_cons_of_ne (by decide), List.count_append]
    rfl

theorem tellsDigit : Tells (fun b => (Char.ofUInt8 b).isDigit) Char.isDigit :=
  tellsAscii Char.isDigit fun c wide => (aboveClasses c wide).2.1

theorem fractionAhead (held : Holds s before piece later) : ∃ first second, s.peek = .ok first ∧
    s.peekNext = .ok second ∧ ((Char.ofUInt8 first == '.' && (Char.ofUInt8 second).isDigit) = true ↔
      ∃ d after, later = '.' :: d :: after ∧ d.isDigit = true) := by
  obtain ⟨first, peeked, isPoint⟩ := peekTells (· == '.') held (tellsIs (by decide)) rfl
  refine ⟨first, _, peeked, (peekNextMoved s).trans (peekExact _), ?_⟩
  rw [isPoint]
  cases later with
  | nil => simp
  | cons c rest =>
    by_cases point : c = '.'
    · subst point
      obtain ⟨b, raw, next, -, moved⟩ := held.next (by decide)
      obtain ⟨second, peekedNext, isDigit⟩ := peekTells Char.isDigit moved tellsDigit rfl
      cases (peekExact _).symm.trans peekedNext
      rw [isDigit]
      cases rest <;> simp
    · simp [point]

theorem fractionNone {cs : List Char} (none : ¬ ∃ d after, cs = '.' :: d :: after ∧ d.isDigit = true) :
    Lexeme.fraction cs = ⟨[], cs⟩ := by
  unfold Lexeme.fraction
  split
  · rename_i d after
    rw [if_neg fun digit => none ⟨d, after, rfl, digit⟩]
  · rfl

theorem fractionExact (held : Holds s before piece later) : ∃ after, s.fractionDigits = .ok after ∧
    Holds after before (piece ++ (Lexeme.fraction later).text) (Lexeme.fraction later).rest ∧ after.line = s.line := by
  obtain ⟨first, second, peeked, peekedNext, ahead⟩ := fractionAhead held
  rw [fractionDigits, peeked, peekedNext]
  change ∃ after, (if (Char.ofUInt8 first == '.' && (Char.ofUInt8 second).isDigit) = true then _ else _) = _ ∧ _
  split
  · rename_i found
    obtain ⟨d, after, rfl, digit⟩ := ahead.mp found
    obtain ⟨b, raw, next, -, moved⟩ := held.next (by decide)
    obtain ⟨last, looped, digits, line⟩ := readWhile digitByte moved tellsDigit rfl plainByte
    rw [plainBytes] at line
    rw [advanceFirst next, Lexeme.fraction, if_pos digit]
    rw [List.append_assoc] at digits
    exact ⟨last, looped, digits, line⟩
  · rename_i none
    rw [fractionNone (mt ahead.mpr none), List.append_nil]
    exact ⟨s, rfl, held, rfl⟩

theorem numberText (cs : List Char) :
    (Lexeme.number cs).meaning = .ok (.number (numberValue (Lexeme.number cs).text)) ∧
      newlines (Lexeme.number cs).text = 0 := by
  have digits : ∀ c ∈ cs.takeWhile Char.isDigit, c.isDigit = true := fun c mem => List.mem_takeWhile_imp mem
  rcases Lexeme.fractionWord (cs.dropWhile Char.isDigit) with none | ⟨run, ds, some⟩
  · simp only [Lexeme.number, numberValue, none, List.append_nil, List.takeWhile_eq_self_iff.mpr digits,
      List.dropWhile_eq_nil_iff.mpr digits, List.drop_nil, true_and]
    exact newlinesNone (by decide) cs
  · have point : ('.' :: run).takeWhile Char.isDigit = [] ∧ ('.' :: run).dropWhile Char.isDigit = '.' :: run := ⟨rfl, rfl⟩
    simp only [Lexeme.number, numberValue, some, List.takeWhile_append_of_pos digits,
      List.dropWhile_append_of_pos digits, point, List.append_nil, true_and]
    rw [newlinesAppend, newlinesNone (by decide), newlines, List.count_cons_of_ne (by decide), Nat.zero_add]
    refine List.count_eq_zero.mpr fun mem => ?_
    cases digitExact.mpr (ds.2 _ mem)

theorem numberExact {c : Char} (digit : c.isDigit = true) (held : Holds s before [c] later) :
    GivesLexeme s s.numberLiteral before (.number (c :: later)) := by
  have taken : (c :: later).takeWhile Char.isDigit = [c] ++ later.takeWhile Char.isDigit :=
    List.takeWhile_cons_of_pos digit
  have dropped : (c :: later).dropWhile Char.isDigit = later.dropWhile Char.isDigit := List.dropWhile_cons_of_pos digit
  obtain ⟨middle, looped, whole, line⟩ := readWhile digitByte held tellsDigit rfl plainByte
  obtain ⟨last, point, fraction, lineAfter⟩ := fractionExact whole
  rw [plainBytes] at line
  have text : (Lexeme.number (c :: later)).text =
      [c] ++ later.takeWhile Char.isDigit ++ (Lexeme.fraction (later.dropWhile Char.isDigit)).text := by
    rw [Lexeme.number, taken, dropped]
  obtain ⟨value, lines⟩ := numberText (c :: later)
  rw [GivesLexeme, numberLiteral, looped]
  change Gives s (middle.fractionDigits >>= _) _ _ _ _ _
  rw [point]
  change Gives s (last.lexeme >>= _) _ _ _ _ _
  rw [fraction.lexeme, value, lines, text]
  refine ⟨last, ?_, ?_, lineAfter.trans line⟩
  · change Except.ok (Scanned.kind (.number (numberValue (String.ofList _).toList)), last) = _
    rw [String.toList_ofList]
    rfl
  · rw [Lexeme.number, dropped]
    exact fraction

theorem wordExact {c : Char} (start : isNameStart c = true) (held : Holds s before [c] later) :
    GivesLexeme s s.word before (.word (c :: later)) := by
  have part : isNamePart c = true := partExact.mpr (.inl (letterExact.mp start))
  have taken : (c :: later).takeWhile isNamePart = [c] ++ later.takeWhile isNamePart := List.takeWhile_cons_of_pos part
  have dropped : (c :: later).dropWhile isNamePart = later.dropWhile isNamePart := List.dropWhile_cons_of_pos part
  obtain ⟨after, looped, name, line⟩ := readWhile (fun _ b => isNamePart (Char.ofUInt8 b)) held
    (tellsAscii isNamePart fun c wide => (aboveClasses c wide).2.2.2) rfl plainByte
  rw [plainBytes] at line
  rw [GivesLexeme, word, looped]
  change Gives s (after.lexeme >>= _) _ _ _ _ _
  rw [name.lexeme, Lexeme.word, newlinesNone (by decide), taken, dropped]
  exact ⟨after, rfl, name, line⟩

theorem unexpectedExact {c : Char} (inner : c ≠ '\n') {tail : List UInt8} (ahead : s.ahead = tail ++ bytes later)
    (continues : ∀ b ∈ tail, isContinuation b = true)
    (held : Holds { s with curr := s.curr + tail.length } before [c] later) :
    GivesLexeme s s.unexpected before ⟨.error (.unexpectedCharacter c), [c], later⟩ := by
  have stops : (bytes later).takeWhile isContinuation = [] := by
    cases later with
    | nil => rfl
    | cons d ds =>
      obtain ⟨lead, _, encoded, starts, -⟩ := encodedFirst d
      rw [bytesCons, encoded, List.cons_append, List.takeWhile_cons_of_neg (by simp [starts])]
  have taken : s.ahead.takeWhile isContinuation = tail := by
    rw [ahead, List.takeWhile_append_of_pos continues, stops, List.append_nil]
  have looped := advanceWhileExact (fun atEnd b => !atEnd && isContinuation b) rfl plainByte s
  change _ = Except.ok { s with
    curr := s.curr + (s.ahead.takeWhile isContinuation).length
    line := s.line + ((s.ahead.takeWhile isContinuation).map plainByte).sum } at looped
  rw [taken, plainBytes] at looped
  rw [GivesLexeme, unexpected, looped]
  change Gives s (lexeme { s with curr := s.curr + tail.length } >>= _) _ _ _ _ _
  rw [held.lexeme, newlines, List.count_singleton, beq_false_of_ne inner, if_neg Bool.false_ne_true]
  refine ⟨_, ?_, held, rfl⟩
  change Except.ok (Scanned.fault (.unexpectedCharacter ((String.ofList [c]).toList.headD default)), _) = _
  rw [String.toList_ofList]
  rfl

theorem commentExact (held : Holds s before piece later) : ∃ after, s.skipComment = .ok after ∧
    Holds after before (piece ++ later.takeWhile (· != '\n')) (later.dropWhile (· != '\n')) ∧ after.line = s.line := by
  have inside : s.curr ≤ s.size := by
    rw [sizeExact, raw, held.text, held.curr, held.start]
    simp only [bytesAppend, List.length_append]
    omega
  have ahead : s.raw.drop s.curr = bytes later := held.ahead
  rw [skipComment, if_pos inside, newlineFromExact inside, ahead, tellsTaken (tellsIsNot (by decide))]
  rw [← List.takeWhile_append_dropWhile (p := (· != '\n')) (l := later)] at held
  exact ⟨_, rfl, held.moved rfl s.line, rfl⟩

theorem symbolLines (one : Symbol) : newlines one.text = 0 := by
  cases one <;> rfl

theorem givesSymbol {run : Except AccessFault (Scanned × Scanner)} {after : Scanner} {one : Symbol}
    (ran : run = .ok (.kind (.symbol one), after)) (held : Holds after before one.text later)
    (line : after.line = s.line) : GivesLexeme s run before (.symbol one later) := by
  refine ⟨after, ran, held, ?_⟩
  rw [line]
  exact congrArg (s.line + ·) (symbolLines one).symm

theorem slashExact (held : Holds s before ['/'] later) :
    (∃ rest, later = '/' :: rest ∧ Gives s s.slash .layout 0 before
      ('/' :: '/' :: rest.takeWhile (· != '\n')) (rest.dropWhile (· != '\n'))) ∨
      (later.head? ≠ some '/' ∧ GivesLexeme s s.slash before (.first '/' later)) := by
  rw [slash]
  rcases matchCases '/' (by decide) held with ⟨rest, after, rfl, second, slashes, line⟩ | ⟨other, single⟩
  · obtain ⟨last, skipped, comment, lineAfter⟩ := commentExact slashes
    refine .inl ⟨rest, rfl, last, ?_, comment, lineAfter.trans line⟩
    rw [second]
    change (after.skipComment >>= _) = _
    rw [skipped]
    rfl
  · refine .inr ⟨other, givesSymbol ?_ held rfl⟩
    rw [single]
    rfl

theorem symbolExact {c : Char} (inner : c ≠ '\n') (noQuote : (c == '"') = false) (noDigit : c.isDigit = false)
    (noLetter : isNameStart c = false) (held : Holds s before [c] later) :
    GivesLexeme s (s.symbol (Symbol.single? c) (Symbol.withEqual? c)) before (.first c later) := by
  cases single : Symbol.single? c with
  | none =>
    rw [Lexeme.firstUnexpected (ne_of_beq_false noQuote) (by simp [← digitExact, noDigit])
      (by simp [← letterExact, noLetter]) single]
    exact unexpectedExact inner (List.nil_append _ ▸ held.ahead) (List.forall_mem_nil _) held
  | some one =>
    have text := Symbol.singleText single
    rw [← text] at held
    cases double : Symbol.withEqual? c with
    | none =>
      rw [Lexeme.firstSingle single (.inl double)]
      exact givesSymbol rfl held rfl
    | some two =>
      rcases matchCases '=' (by decide) held with ⟨rest, after, rfl, second, both, line⟩ | ⟨other, alone⟩
      · have pair : one.text ++ ['='] = two.text := by
          rw [text, Symbol.withEqualText double]
          rfl
        rw [pair] at both
        rw [Lexeme.firstDouble single double]
        refine givesSymbol ?_ both line
        rw [symbol, second]
        rfl
      · rw [Lexeme.firstSingle single (.inr other)]
        refine givesSymbol ?_ held rfl
        rw [symbol, alone]
        rfl

theorem scanAfterLexeme {b : UInt8} (solid : isBlank (Char.ofUInt8 b) = false) (code : Char.ofUInt8 b ≠ '/')
    (held : Holds s before [Char.ofUInt8 b] later) :
    GivesLexeme s (s.scanAfter b) before (.first (Char.ofUInt8 b) later) := by
  have inner : Char.ofUInt8 b ≠ '\n' := by
    intro newline
    rw [newline] at solid
    cases solid
  simp only [scanAfter, solid, Bool.false_eq_true, if_false]
  split
  · rename_i quote
    rw [eq_of_beq quote] at held ⊢
    exact stringExact held
  split
  · rename_i digit
    rw [Lexeme.firstDigit (digitExact.mp digit)]
    exact numberExact digit held
  split
  · rename_i letter
    rw [Lexeme.firstLetter (letterExact.mp letter)]
    exact wordExact letter held
  · rename_i noQuote noDigit noLetter
    rw [if_neg (by simpa using code)]
    exact symbolExact inner (Bool.eq_false_iff.mpr noQuote) (Bool.eq_false_iff.mpr noDigit)
      (Bool.eq_false_iff.mpr noLetter) held

theorem scanTokenWide {c : Char} (wide : 128 ≤ c.toNat) (held : Holds s before [] (c :: later)) :
    GivesLexeme s s.scanToken before (.first c later) := by
  obtain ⟨lead, tail, encoded, high, -, continues⟩ := encodedWide wide
  have next : s.ahead = lead :: (tail ++ bytes later) := by
    rw [held.ahead, bytesCons, encoded, List.cons_append]
  have whole : Holds { s with curr := s.curr + 1 + tail.length } before [c] later := by
    have single : Holds s before [] ([c] ++ later) := held
    refine single.moved ?_ s.line
    rw [bytesCons, encoded, bytesNil, List.append_nil, List.length_cons]
    omega
  have inner : c ≠ '\n' := ne_of_beq_false (aboveBeq (by decide) c wide)
  obtain ⟨-, digit, letter, -⟩ := aboveClasses c wide
  rw [Lexeme.firstUnexpected (ne_of_beq_false (aboveBeq (by decide) c wide)) (by simp [← digitExact, digit])
    (by simp [← letterExact, letter]) (aboveSymbols c wide).1]
  have above : 128 ≤ (Char.ofUInt8 lead).toNat := high
  obtain ⟨blankLead, digitLead, letterLead, -⟩ := aboveClasses _ above
  have quoteLead : (Char.ofUInt8 lead == '"') = false := aboveBeq (by decide) _ above
  have slashLead : (Char.ofUInt8 lead == '/') = false := aboveBeq (by decide) _ above
  have run : { s with curr := s.curr + 1 }.scanAfter lead = { s with curr := s.curr + 1 }.unexpected := by
    simp only [scanAfter, blankLead, digitLead, letterLead, quoteLead, slashLead, aboveSymbols _ above, symbol,
      Bool.false_eq_true, if_false]
  rw [scanToken, advanceFirst next]
  change GivesLexeme s ({ s with curr := s.curr + 1 }.scanAfter lead) _ _
  rw [run]
  exact unexpectedExact inner (aheadMoved next) continues whole

theorem scanTokenExact {c : Char} (held : Holds s before [] (c :: later)) :
    (∃ gap rest, Gives s s.scanToken .layout (newlines gap) before gap rest ∧ rest.length ≤ later.length ∧
      ∀ line, scanFrom line (c :: later) = scanFrom (line + newlines gap) rest) ∨
    (layout false (c :: later) = ⟨[], c :: later⟩ ∧ GivesLexeme s s.scanToken before (.first c later)) := by
  by_cases ascii : c.toNat < 128
  · obtain ⟨b, raw, next, same, moved⟩ := held.next ascii
    subst same
    have run : s.scanToken = { s with curr := s.curr + 1 }.scanAfter b := by
      rw [scanToken, advanceFirst next]
      rfl
    rw [run]
    cases blank : isBlank (Char.ofUInt8 b) with
    | true =>
      have lines : newlineByte b = newlines [Char.ofUInt8 b] := by
        rw [newlineByte, newlines, List.count_singleton]
      refine .inl ⟨[Char.ofUInt8 b], later, ⟨{ s with curr := s.curr + 1, line := s.line + newlineByte b }, ?_,
        ⟨moved.text, moved.start, moved.curr⟩, congrArg (s.line + ·) lines⟩, Nat.le_refl _, fun line => ?_⟩
      · simp only [scanAfter, blank, if_true]
        rfl
      · refine scanFromLayout (by rw [layoutBlank blank]) ?_
        rw [layoutBlank blank, ← List.singleton_append, newlinesAppend, Nat.add_assoc]
    | false =>
      by_cases code : Char.ofUInt8 b = '/'
      · have run : { s with curr := s.curr + 1 }.scanAfter b = { s with curr := s.curr + 1 }.slash := by
          simp only [scanAfter, code]
          rfl
        rw [run]
        rw [code] at moved ⊢
        rcases slashExact moved with ⟨rest, rfl, comment⟩ | ⟨single, lexeme⟩
        · have none := commentLines rest
          refine .inl ⟨_, _, none.symm ▸ comment, ?_, fun line => ?_⟩
          · exact Nat.le_succ_of_le (List.dropWhile_sublist _).length_le
          · rw [none]
            exact scanFromComment line rest
        · refine .inr ⟨layoutNone (by decide) fun after _ same => single ?_, lexeme⟩
          rw [same]
          rfl
      · exact .inr ⟨layoutNone (by simp [blank]) fun _ slash => absurd slash code, scanAfterLexeme blank code moved⟩
  · have wide := Nat.le_of_not_lt ascii
    refine .inr ⟨layoutNone (by simp [(aboveClasses c wide).1]) fun after slash => ?_, scanTokenWide wide held⟩
    rw [slash] at wide
    exact absurd wide (by decide)

end

end Scanner
end Treewalk
