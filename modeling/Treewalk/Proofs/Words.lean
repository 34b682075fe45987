import Mathlib.Data.List.TakeWhile
import Treewalk.Proofs.Seam

/-! The words of the language, said without the scanner: symbols, strings, numbers and names, each with the kind of
token that it is. The scanner cuts off the longest word that the text begins with, and finds a fault only where no
word begins. -/
namespace Treewalk

def Blank (c : Char) : Prop := c = ' ' ∨ c = '\t' ∨ c = '\r' ∨ c = '\n'

def Digit (c : Char) : Prop := '0' ≤ c ∧ c ≤ '9'

def Letter (c : Char) : Prop := ('a' ≤ c ∧ c ≤ 'z') ∨ ('A' ≤ c ∧ c ≤ 'Z') ∨ c = '_'

def DigitRun (cs : List Char) : Prop := cs ≠ [] ∧ ∀ c ∈ cs, Digit c

def NameShaped : List Char → Prop
  | [] => False
  | c :: cs => Letter c ∧ ∀ d ∈ cs, Letter d ∨ Digit d

inductive Word : List Char → Kind → Prop where
  | symbol (s : Symbol) : Word s.text (.symbol s)
  | string {inner : List Char} (closed : '"' ∉ inner) :
      Word ('"' :: inner ++ ['"']) (.string (String.ofList inner))
  | whole {digits : List Char} (all : DigitRun digits) : Word digits (.number (Number.ofDigits digits []))
  | decimal {whole fraction : List Char} (before : DigitRun whole) (after : DigitRun fraction) :
      Word (whole ++ '.' :: fraction) (.number (Number.ofDigits whole fraction))
  | keyword (k : Keyword) : Word k.text.toList (.keyword k)
  | identifier {name : List Char} (shape : NameShaped name) (free : ∀ k : Keyword, k.text.toList ≠ name) :
      Word name .identifier

section Classes
variable {c : Char}

theorem blankExact : isBlank c = true ↔ Blank c := by
  simp only [isBlank, Blank, Bool.or_eq_true, beq_iff_eq]
  grind

theorem digitExact : c.isDigit = true ↔ Digit c := by
  simp [Char.isDigit, Digit, Char.le_def]

theorem alphaRanges (c : Char) : c.isAlpha =
    (decide (c.val ≥ 'A'.val ∧ c.val ≤ 'Z'.val) || decide (c.val ≥ 'a'.val) && decide (c.val ≤ 'z'.val)) := rfl

theorem letterExact : isNameStart c = true ↔ Letter c := by
  simp only [isNameStart, alphaRanges, Letter, Char.le_def, Bool.or_eq_true, Bool.and_eq_true, decide_eq_true_eq,
    beq_iff_eq, ge_iff_le]
  grind

theorem partExact : isNamePart c = true ↔ Letter c ∨ Digit c := by
  have same : isNamePart c = (isNameStart c || c.isDigit) := by
    simp only [isNamePart, isNameStart, Char.isAlphanum, Bool.or_right_comm]
  rw [same, Bool.or_eq_true, letterExact, digitExact]

theorem Letter.notDigit (letter : Letter c) : ¬ Digit c := by
  rintro ⟨low, high⟩
  rcases letter with ⟨least, _⟩ | ⟨least, _⟩ | rfl
  · exact absurd (Char.le_trans least high) (by decide)
  · exact absurd (Char.le_trans least high) (by decide)
  · exact absurd high (by decide)

theorem Digit.notQuote (digit : Digit c) : c ≠ '"' := by
  rintro rfl
  exact absurd digit.1 (by decide)

theorem Letter.notQuote (letter : Letter c) : c ≠ '"' := by
  rintro rfl
  revert letter
  unfold Letter
  decide

end Classes

theorem keywordShaped (k : Keyword) : NameShaped k.text.toList := by
  cases k <;> simp [Keyword.text, NameShaped, Letter, Digit]

theorem keywordFound (k : Keyword) : Keyword.ofText? k.text = some k := by
  cases k <;> decide

theorem keywordMissing {s : String} (missing : Keyword.ofText? s = none) (k : Keyword) : k.text ≠ s := by
  rintro rfl
  cases (keywordFound k).symm.trans missing

theorem DigitRun.all {digits : List Char} (run : DigitRun digits) : ∀ c ∈ digits, c.isDigit = true :=
  fun c member => digitExact.mpr (run.2 c member)

theorem DigitRun.first {digits : List Char} (run : DigitRun digits) : ∃ c cs, digits = c :: cs ∧ Digit c := by
  obtain ⟨c, cs, rfl⟩ := List.exists_cons_of_ne_nil run.1
  exact ⟨c, cs, rfl, run.2 c List.mem_cons_self⟩

theorem NameShaped.first {name : List Char} (shape : NameShaped name) : ∃ c cs, name = c :: cs ∧ Letter c := by
  cases name with
  | nil => exact shape.elim
  | cons c cs => exact ⟨c, cs, rfl, shape.1⟩

theorem NameShaped.all {name : List Char} (shape : NameShaped name) : ∀ c ∈ name, isNamePart c = true := by
  cases name with
  | nil => exact shape.elim
  | cons c cs =>
    have tail : ∀ d ∈ cs, isNamePart d = true := fun d member => partExact.mpr (shape.2 d member)
    exact List.forall_mem_cons.mpr ⟨partExact.mpr (.inl shape.1), tail⟩

namespace Lexeme

section Begun
variable {c : Char}

theorem firstDigit (digit : Digit c) (cs : List Char) : first c cs = number (c :: cs) := by
  simp [first, digit.notQuote, digitExact.mpr digit]

theorem firstLetter (letter : Letter c) (cs : List Char) : first c cs = word (c :: cs) := by
  have noDigit : c.isDigit = false := Bool.eq_false_iff.mpr (mt digitExact.mp letter.notDigit)
  simp [first, letter.notQuote, noDigit, letterExact.mpr letter]

theorem quoteFree {inner : List Char} (free : '"' ∉ inner) : ∀ c ∈ inner, (c != '"') = true := by
  intro c member
  rw [bne_iff_ne]
  rintro rfl
  exact free member

theorem stringClosed {inner : List Char} (closed : '"' ∉ inner) (rest : List Char) :
    string (inner ++ '"' :: rest) = ⟨.ok (.string (String.ofList inner)), '"' :: inner ++ ['"'], rest⟩ := by
  have free := quoteFree closed
  simp [string, List.takeWhile_append_of_pos free, List.dropWhile_append_of_pos free]

theorem stringOpen {inner : List Char} (unclosed : '"' ∉ inner) :
    string inner = ⟨.error .unterminatedString, '"' :: inner, []⟩ := by
  have free := quoteFree unclosed
  simp [string, List.takeWhile_eq_self_iff.mpr free, List.dropWhile_eq_nil_iff.mpr free]

theorem numberWhole {digits : List Char} (run : DigitRun digits) (more : List Char) :
    (number (digits ++ more)).text =
      digits ++ (more.takeWhile Char.isDigit ++ (fraction (more.dropWhile Char.isDigit)).text) := by
  simp [number, List.takeWhile_append_of_pos run.all, List.dropWhile_append_of_pos run.all]

theorem fractionRun {run : List Char} (digits : DigitRun run) (more : List Char) :
    fraction ('.' :: (run ++ more)) = ⟨'.' :: (run ++ more.takeWhile Char.isDigit), more.dropWhile Char.isDigit⟩ := by
  rw [← List.takeWhile_append_of_pos digits.all, ← List.dropWhile_append_of_pos digits.all]
  obtain ⟨d, ds, rfl, digit⟩ := digits.first
  simp only [List.cons_append, fraction, digitExact.mpr digit, if_true]

theorem numberDecimal {whole fraction : List Char} (before : DigitRun whole) (after : DigitRun fraction)
    (more : List Char) : number (whole ++ '.' :: (fraction ++ more)) =
      ⟨.ok (.number (Number.ofDigits whole (fraction ++ more.takeWhile Char.isDigit))),
        whole ++ '.' :: (fraction ++ more.takeWhile Char.isDigit), more.dropWhile Char.isDigit⟩ := by
  have point : Char.isDigit '.' = false := rfl
  simp [number, List.takeWhile_append_of_pos before.all, List.dropWhile_append_of_pos before.all, point,
    fractionRun after]

theorem wordName {name : List Char} (shape : NameShaped name) (more : List Char) :
    (word (name ++ more)).text = name ++ more.takeWhile isNamePart := by
  simp [word, List.takeWhile_append_of_pos shape.all]

theorem wordAlone {name : List Char} (shape : NameShaped name) {keyword? : Option Keyword}
    (spelled : Keyword.ofText? (String.ofList name) = keyword?) :
    ∃ c cs, name = c :: cs ∧ first c cs = ⟨.ok (keyword?.elim .identifier .keyword), name, []⟩ := by
  have taken := List.takeWhile_eq_self_iff.mpr shape.all
  have dropped := List.dropWhile_eq_nil_iff.mpr shape.all
  obtain ⟨c, cs, rfl, letter⟩ := shape.first
  refine ⟨c, cs, rfl, ?_⟩
  rw [firstLetter letter]
  cases keyword? <;> simp only [word, taken, dropped, spelled, Option.elim]

end Begun

theorem wordCut {text : List Char} {kind : Kind} (w : Word text kind) :
    ∃ c cs, text = c :: cs ∧ first c cs = ⟨.ok kind, text, []⟩ := by
  cases w with
  | symbol s => cases s <;> exact ⟨_, _, rfl, rfl⟩
  | string closed => exact ⟨_, _, rfl, stringClosed closed []⟩
  | whole run =>
    obtain ⟨c, cs, rfl, digit⟩ := run.first
    refine ⟨c, cs, rfl, ?_⟩
    rw [firstDigit digit]
    simp [number, List.takeWhile_eq_self_iff.mpr run.all, List.dropWhile_eq_nil_iff.mpr run.all, fraction]
  | @decimal whole fraction before after =>
    have cut := numberDecimal before after []
    obtain ⟨c, cs, rfl, digit⟩ := before.first
    refine ⟨c, cs ++ '.' :: fraction, rfl, ?_⟩
    rw [firstDigit digit]
    simpa using cut
  | keyword k => exact wordAlone (keywordShaped k) (by rw [String.ofList_toList, keywordFound])
  | identifier shape free =>
    refine wordAlone shape (Option.eq_none_iff_forall_ne_some.mpr fun k found => free k ?_)
    rw [keywordText found, String.toList_ofList]

theorem firstHead (c : Char) (cs : List Char) : [c] <+: (first c cs).text := by
  have whole := firstAppend c cs
  cases text : (first c cs).text with
  | nil => exact absurd text (firstNonempty c cs)
  | cons d ds =>
    rw [text, List.cons_append] at whole
    rw [(List.cons.inj whole).1]
    exact List.prefix_append [c] ds

theorem symbolPlain {c : Char} {s : Symbol} (one : Symbol.single? c = some s) :
    (c == '"') = false ∧ c.isDigit = false ∧ isNameStart c = false := by
  unfold Symbol.single? at one
  split at one <;> first | exact ⟨rfl, rfl, rfl⟩ | cases one

theorem firstSymbol {c : Char} {s : Symbol} (one : Symbol.single? c = some s) (cs : List Char) :
    ∃ t rest, first c cs = symbol t rest := by
  obtain ⟨noQuote, noDigit, noLetter⟩ := symbolPlain one
  simp only [first, noQuote, noDigit, noLetter, one, Bool.false_eq_true, if_false]
  split
  · exact ⟨_, _, rfl⟩
  · exact ⟨_, _, rfl⟩
  · contradiction

theorem symbolTexts (s : Symbol) : (∃ c, s.text = [c] ∧ Symbol.single? c = some s) ∨
    ∃ c, s.text = [c, '='] ∧ ∀ more, first c ('=' :: more) = symbol s more := by
  cases s <;> first | exact .inl ⟨_, rfl, rfl⟩ | exact .inr ⟨_, rfl, fun _ => rfl⟩

def Reaches (text more : List Char) : Prop :=
  ∃ c cs, text = c :: cs ∧ (∃ kind, (first c (cs ++ more)).meaning = .ok kind) ∧ text <+: (first c (cs ++ more)).text

theorem symbolReaches (s : Symbol) (more : List Char) : Reaches s.text more := by
  rcases symbolTexts s with ⟨c, same, one⟩ | ⟨c, same, cut⟩
  · obtain ⟨t, rest, cut⟩ := firstSymbol one more
    rw [same]
    exact ⟨c, [], rfl, ⟨.symbol t, congrArg meaning cut⟩, firstHead c more⟩
  · refine ⟨c, ['='], same, ?_⟩
    rw [List.singleton_append, cut]
    exact ⟨⟨_, rfl⟩, List.prefix_refl _⟩

theorem nameReaches {name : List Char} (shape : NameShaped name) (more : List Char) : Reaches name more := by
  have cut := wordName shape more
  obtain ⟨c, cs, rfl, letter⟩ := shape.first
  refine ⟨c, cs, rfl, ?_⟩
  rw [firstLetter letter, ← List.cons_append, cut]
  exact ⟨⟨_, rfl⟩, List.prefix_append ..⟩

theorem wordReaches {text : List Char} {kind : Kind} (w : Word text kind) (more : List Char) : Reaches text more := by
  cases w with
  | symbol s => exact symbolReaches s more
  | @string inner closed =>
    refine ⟨'"', inner ++ ['"'], rfl, ?_⟩
    have cut : first '"' (inner ++ ['"'] ++ more) = _ :=
      (congrArg string (List.append_assoc ..)).trans (stringClosed closed more)
    rw [cut]
    exact ⟨⟨_, rfl⟩, List.prefix_refl _⟩
  | whole run =>
    have cut := numberWhole run more
    obtain ⟨c, cs, rfl, digit⟩ := run.first
    refine ⟨c, cs, rfl, ?_⟩
    rw [firstDigit digit, ← List.cons_append, cut]
    exact ⟨⟨_, rfl⟩, List.prefix_append ..⟩
  | @decimal whole fraction before after =>
    have cut := numberDecimal before after more
    obtain ⟨c, cs, rfl, digit⟩ := before.first
    refine ⟨c, cs ++ '.' :: fraction, rfl, ?_⟩
    rw [firstDigit digit]
    simp only [List.cons_append, List.append_assoc] at cut ⊢
    rw [cut]
    exact ⟨⟨_, rfl⟩, ⟨more.takeWhile Char.isDigit, by simp⟩⟩
  | keyword k => exact nameReaches (keywordShaped k) more
  | identifier shape free => exact nameReaches shape more

theorem stringWord {cs : List Char} {kind : Kind} (meaning : (string cs).meaning = .ok kind) :
    Word (string cs).text kind := by
  have inner : '"' ∉ cs.takeWhile (· != '"') := by
    intro member
    simpa using List.mem_takeWhile_imp member
  unfold string at meaning ⊢
  cases found : cs.dropWhile (· != '"') with
  | nil => simp [found] at meaning
  | cons quote rest =>
    simp only [found, Except.ok.injEq] at meaning ⊢
    subst meaning
    exact .string inner

theorem digitsTaken {c : Char} (digit : Digit c) (cs : List Char) : DigitRun ((c :: cs).takeWhile Char.isDigit) := by
  constructor
  · simp [digitExact.mpr digit]
  · exact fun d member => digitExact.mp (List.mem_takeWhile_imp member)

theorem fractionWord (cs : List Char) : (fraction cs).text = [] ∨
    ∃ run, DigitRun run ∧ (fraction cs).text = '.' :: run := by
  unfold fraction
  split
  · rename_i d after
    split
    · rename_i digit
      exact .inr ⟨_, digitsTaken (digitExact.mp digit) after, rfl⟩
    · exact .inl rfl
  · exact .inl rfl

theorem numberWord {c : Char} (digit : Digit c) {cs : List Char} {kind : Kind}
    (meaning : (number (c :: cs)).meaning = .ok kind) : Word (number (c :: cs)).text kind := by
  have whole := digitsTaken digit cs
  unfold number at meaning ⊢
  cases meaning
  rcases fractionWord ((c :: cs).dropWhile Char.isDigit) with none | ⟨run, digits, some⟩
  · simp only [none, List.append_nil, List.drop_nil]
    exact .whole whole
  · simp only [some, List.drop_succ_cons, List.drop_zero]
    exact .decimal whole digits

theorem wordWord {c : Char} (letter : Letter c) {cs : List Char} {kind : Kind}
    (meaning : (word (c :: cs)).meaning = .ok kind) : Word (word (c :: cs)).text kind := by
  have shape : NameShaped ((c :: cs).takeWhile isNamePart) := by
    rw [List.takeWhile_cons_of_pos (partExact.mpr (.inl letter))]
    exact ⟨letter, fun d member => partExact.mp (List.mem_takeWhile_imp member)⟩
  unfold word at meaning ⊢
  cases found : Keyword.ofText? (String.ofList ((c :: cs).takeWhile isNamePart)) with
  | some k =>
    simp only [found, Except.ok.injEq] at meaning ⊢
    subst meaning
    have same := congrArg String.toList (keywordText found)
    rw [String.toList_ofList] at same
    exact same ▸ .keyword k
  | none =>
    simp only [found, Except.ok.injEq] at meaning ⊢
    subst meaning
    refine .identifier shape fun k same => keywordMissing found k ?_
    rw [← same, String.ofList_toList]

theorem firstUnexpected {c : Char} (noQuote : c ≠ '"') (noDigit : ¬ Digit c) (noLetter : ¬ Letter c)
    (single : Symbol.single? c = none) (cs : List Char) :
    first c cs = ⟨.error (.unexpectedCharacter c), [c], cs⟩ := by
  have double : Symbol.withEqual? c = none := by
    unfold Symbol.withEqual?
    split <;> first | rfl | cases single
  simp [first, noQuote, mt digitExact.mp noDigit, mt letterExact.mp noLetter, single, double]

theorem firstCases (c : Char) (cs : List Char) :
    (c = '"' ∧ first c cs = string cs) ∨ (Digit c ∧ first c cs = number (c :: cs)) ∨
      (Letter c ∧ first c cs = word (c :: cs)) ∨ (∃ s rest, first c cs = symbol s rest) ∨
      ∀ later, first c later = ⟨.error (.unexpectedCharacter c), [c], later⟩ := by
  by_cases quote : c = '"'
  · exact .inl ⟨quote, by rw [quote]; rfl⟩
  by_cases digit : Digit c
  · exact .inr (.inl ⟨digit, firstDigit digit cs⟩)
  by_cases letter : Letter c
  · exact .inr (.inr (.inl ⟨letter, firstLetter letter cs⟩))
  refine .inr (.inr (.inr ?_))
  cases single : Symbol.single? c with
  | none => exact .inr (firstUnexpected quote digit letter single)
  | some one => exact .inl (firstSymbol single cs)

theorem firstWord {c : Char} {cs : List Char} {kind : Kind} (meaning : (first c cs).meaning = .ok kind) :
    Word (first c cs).text kind := by
  rcases firstCases c cs with ⟨_, cut⟩ | ⟨digit, cut⟩ | ⟨letter, cut⟩ | ⟨s, rest, cut⟩ | cut
  · rw [cut] at meaning ⊢
    exact stringWord meaning
  · rw [cut] at meaning ⊢
    exact numberWord digit meaning
  · rw [cut] at meaning ⊢
    exact wordWord letter meaning
  · rw [cut] at meaning ⊢
    cases meaning
    exact .symbol s
  · rw [cut] at meaning
    cases meaning

theorem firstFault {c : Char} {cs : List Char} {fault : LexicalFault} (meaning : (first c cs).meaning = .error fault) :
    (fault = .unexpectedCharacter c ∧ (first c cs).text = [c] ∧ ∀ text kind, Word text kind → text.head? ≠ some c) ∨
      (fault = .unterminatedString ∧ (first c cs).text = '"' :: cs ∧ '"' ∉ cs ∧ (first c cs).rest = []) := by
  rcases firstCases c cs with ⟨_, cut⟩ | ⟨digit, cut⟩ | ⟨letter, cut⟩ | ⟨s, rest, cut⟩ | cut
  · right
    have unclosed : '"' ∉ cs := by
      intro member
      obtain ⟨inner, rest, rfl, closed⟩ := List.eq_append_cons_of_mem member
      rw [cut, stringClosed closed] at meaning
      cases meaning
    rw [cut, stringOpen unclosed] at meaning ⊢
    cases meaning
    exact ⟨rfl, rfl, unclosed, rfl⟩
  · rw [cut] at meaning
    cases meaning
  · rw [cut] at meaning
    cases meaning
  · rw [cut] at meaning
    cases meaning
  · left
    rw [cut] at meaning ⊢
    cases meaning
    refine ⟨rfl, rfl, fun text kind w head => ?_⟩
    obtain ⟨d, ds, rfl, whole⟩ := wordCut w
    cases head
    rw [cut] at whole
    cases whole

end Lexeme

def Longest (text rest : List Char) : Prop :=
  ∀ other kind, Word other kind → other <+: text ++ rest → other.length ≤ text.length

theorem wordUnique {text : List Char} {kind kind' : Kind} (one : Word text kind) (two : Word text kind') :
    kind = kind' := by
  obtain ⟨c, cs, rfl, cut⟩ := Lexeme.wordCut one
  obtain ⟨d, ds, same, cut'⟩ := Lexeme.wordCut two
  cases same
  cases cut.symm.trans cut'
  rfl

namespace Lexeme

theorem firstLongest {c : Char} {cs text : List Char} {kind : Kind} (w : Word text kind) (begins : text <+: c :: cs) :
    (∃ kind', (first c cs).meaning = .ok kind') ∧ text <+: (first c cs).text := by
  obtain ⟨more, same⟩ := begins
  obtain ⟨d, ds, rfl, ok, reached⟩ := wordReaches w more
  cases same
  exact ⟨ok, reached⟩

theorem firstExact {text rest : List Char} {kind : Kind} (w : Word text kind) (longest : Longest text rest) :
    ∃ c cs, text = c :: cs ∧ first c (cs ++ rest) = ⟨.ok kind, text, rest⟩ := by
  obtain ⟨c, cs, rfl, ⟨kind', ok⟩, reached⟩ := wordReaches w rest
  have whole := firstAppend c (cs ++ rest)
  have same : c :: cs = (first c (cs ++ rest)).text := by
    refine reached.eq_of_length_le (longest _ kind' (firstWord ok) ?_)
    exact ⟨_, whole⟩
  have after : (first c (cs ++ rest)).rest = rest := by
    rw [← same, List.cons_append] at whole
    exact List.append_cancel_left (List.cons.inj whole).2
  have unique := wordUnique w (same ▸ firstWord ok)
  refine ⟨c, cs, rfl, ?_⟩
  generalize first c (cs ++ rest) = l at ok same after
  obtain ⟨meaning, text, tail⟩ := l
  simp only at ok same after
  rw [ok, ← same, after, unique]

end Lexeme

end Treewalk
