import Treewalk.Token.Scan

/-! Scanning by byte positions: one pass over the bytes of the text, an item for each call. Every byte is
read and every slice is cut through a check; what fails it is an `AccessFault`. -/
namespace Treewalk

inductive AccessFault where
  | byte (index : Nat)
  | slice (first stop : Nat)
  deriving DecidableEq, Repr

/-- The lexeme being scanned starts at `start`; the next byte to read is at `curr`. -/
structure Scanner where
  text : String
  start : Nat
  curr : Nat
  line : Nat

inductive Scanned where
  | layout
  | kind (k : Kind)
  | fault (f : LexicalFault)

structure Scanner.Onward (s after : Scanner) : Prop where
  text : after.text = s.text
  curr : s.curr ≤ after.curr

namespace Scanner

def ofText (text : String) : Scanner := ⟨text, 0, 0, 1⟩

def size (s : Scanner) : Nat := s.text.utf8ByteSize

def atEnd (s : Scanner) : Bool := s.size ≤ s.curr

def byte (s : Scanner) (i : Nat) : Except AccessFault UInt8 :=
  if inside : (⟨i⟩ : String.Pos.Raw) < s.text.rawEndPos then .ok (s.text.getUTF8Byte ⟨i⟩ inside)
  else .error (.byte i)

def slice (s : Scanner) (first stop : Nat) : Except AccessFault String :=
  if cut : String.Pos.Raw.IsValid s.text ⟨first⟩ ∧ String.Pos.Raw.IsValid s.text ⟨stop⟩ ∧ first ≤ stop then
    .ok (s.text.extract ⟨⟨first⟩, cut.1⟩ ⟨⟨stop⟩, cut.2.1⟩)
  else .error (.slice first stop)

def advance (s : Scanner) : Except AccessFault (UInt8 × Scanner) := do
  let b ← s.byte s.curr
  return (b, { s with curr := s.curr + 1 })

def peek (s : Scanner) : Except AccessFault UInt8 :=
  if s.atEnd then .ok 0 else s.byte s.curr

def peekNext (s : Scanner) : Except AccessFault UInt8 :=
  if s.size ≤ s.curr + 1 then .ok 0 else s.byte (s.curr + 1)

def matchByte (expected : Char) (s : Scanner) : Except AccessFault (Bool × Scanner) := do
  if !s.atEnd && Char.ofUInt8 (← s.peek) == expected then
    let (_, s) ← s.advance
    return (true, s)
  else return (false, s)

def lexeme (s : Scanner) : Except AccessFault String := s.slice s.start s.curr

theorem Onward.refl (s : Scanner) : Onward s s := ⟨rfl, Nat.le_refl _⟩

theorem Onward.trans {s middle after : Scanner} (one : Onward s middle) (two : Onward middle after) : Onward s after :=
  ⟨two.text.trans one.text, Nat.le_trans one.curr two.curr⟩

theorem byteInside {s : Scanner} {i : Nat} {b : UInt8} (read : s.byte i = .ok b) : i < s.size := by
  unfold byte at read
  split at read
  · rename_i inside
    exact inside
  · cases read

theorem bindInv {α β : Type} {x : Except AccessFault α} {f : α → Except AccessFault β} {b : β}
    (ran : x >>= f = .ok b) : ∃ a, x = .ok a ∧ f a = .ok b := by
  cases x with
  | error fault => cases ran
  | ok a => exact ⟨a, rfl, ran⟩

theorem advanceInv {s after : Scanner} {b : UInt8} (ran : s.advance = .ok (b, after)) :
    s.curr < s.size ∧ after = { s with curr := s.curr + 1 } := by
  obtain ⟨_, read, rest⟩ := bindInv ran
  cases rest
  exact ⟨byteInside read, rfl⟩

/-- Reads on while `more` holds of being at the end and of the byte ahead; each byte adds to the lines. -/
def advanceWhile (more : Bool → UInt8 → Bool) (lines : UInt8 → Nat) (s : Scanner) : Except AccessFault Scanner := do
  if more s.atEnd (← s.peek) then
    match _read : s.advance with
    | .ok (b, after) => advanceWhile more lines { after with line := after.line + lines b }
    | .error fault => .error fault
  else return s
termination_by s.size - s.curr
decreasing_by
  obtain ⟨inside, rfl⟩ := advanceInv _read
  simp only [size] at inside ⊢
  omega

def newlineFrom (s : Scanner) (i : Nat) : Except AccessFault Nat := do
  if _inside : i < s.size then
    if Char.ofUInt8 (← s.byte i) == '\n' then return i else newlineFrom s (i + 1)
  else return s.size
termination_by s.size - i

def skipComment (s : Scanner) : Except AccessFault Scanner := do
  if s.curr ≤ s.size then
    return { s with curr := ← s.newlineFrom s.curr }
  else .error (.slice s.curr s.size)

def plainByte (_ : UInt8) : Nat := 0

def newlineByte (b : UInt8) : Nat := if Char.ofUInt8 b == '\n' then 1 else 0

def stringLiteral (s : Scanner) : Except AccessFault (Scanned × Scanner) := do
  let s ← s.advanceWhile (fun atEnd b => !atEnd && Char.ofUInt8 b != '"') newlineByte
  if s.atEnd then return (.fault .unterminatedString, s)
  else
    let (_, s) ← s.advance
    let contents ← s.slice (s.start + 1) (s.curr - 1)
    return (.kind (.string contents), s)

def digitByte (_ : Bool) (b : UInt8) : Bool := (Char.ofUInt8 b).isDigit

def fractionDigits (s : Scanner) : Except AccessFault Scanner := do
  if Char.ofUInt8 (← s.peek) == '.' && (Char.ofUInt8 (← s.peekNext)).isDigit then
    let (_, s) ← s.advance
    s.advanceWhile digitByte plainByte
  else return s

def numberValue (text : List Char) : Float :=
  Number.ofDigits (text.takeWhile Char.isDigit) ((text.dropWhile Char.isDigit).drop 1)

def numberLiteral (s : Scanner) : Except AccessFault (Scanned × Scanner) := do
  let s ← s.advanceWhile digitByte plainByte
  let s ← s.fractionDigits
  return (.kind (.number (numberValue (← s.lexeme).toList)), s)

def word (s : Scanner) : Except AccessFault (Scanned × Scanner) := do
  let s ← s.advanceWhile (fun _ b => isNamePart (Char.ofUInt8 b)) plainByte
  let kind := match Keyword.ofText? (← s.lexeme) with
    | some k => .keyword k
    | none => .identifier
  return (.kind kind, s)

def isContinuation (b : UInt8) : Bool := b &&& 0xC0 == 0x80

/-- After the first byte of a character that starts no lexeme: all its bytes are one fault. -/
def unexpected (s : Scanner) : Except AccessFault (Scanned × Scanner) := do
  let s ← s.advanceWhile (fun atEnd b => !atEnd && isContinuation b) plainByte
  return (.fault (.unexpectedCharacter ((← s.lexeme).toList.headD default)), s)

def slash (s : Scanner) : Except AccessFault (Scanned × Scanner) := do
  let (twice, s) ← s.matchByte '/'
  if twice then return (.layout, ← s.skipComment)
  else return (.kind (.symbol .slash), s)

/-- After the character of a symbol `one`, which an equal sign makes another, or of no symbol. -/
def symbol (one double : Option Symbol) (s : Scanner) : Except AccessFault (Scanned × Scanner) :=
  match one, double with
  | some one, some double => do
    let (two, s) ← s.matchByte '='
    return (.kind (.symbol (if two then double else one)), s)
  | some one, none => return (.kind (.symbol one), s)
  | none, _ => s.unexpected

def scanAfter (b : UInt8) (s : Scanner) : Except AccessFault (Scanned × Scanner) :=
  let c := Char.ofUInt8 b
  if isBlank c then return (.layout, { s with line := s.line + newlineByte b })
  else if c == '"' then s.stringLiteral
  else if c.isDigit then s.numberLiteral
  else if isNameStart c then s.word
  else if c == '/' then s.slash
  else s.symbol (Symbol.single? c) (Symbol.withEqual? c)

def scanToken (s : Scanner) : Except AccessFault (Scanned × Scanner) := do
  let (b, s) ← s.advance
  s.scanAfter b

section

variable {s after : Scanner} {found : Scanned}

theorem advanceOnward {b : UInt8} (ran : s.advance = .ok (b, after)) : Onward s after := by
  obtain ⟨-, rfl⟩ := advanceInv ran
  exact ⟨rfl, Nat.le_succ _⟩

theorem matchByteOnward {expected : Char} {two : Bool} (ran : s.matchByte expected = .ok (two, after)) :
    Onward s after := by
  obtain ⟨_, _, rest⟩ := bindInv ran
  split at rest
  · obtain ⟨_, moved, last⟩ := bindInv rest
    cases last
    exact advanceOnward moved
  · cases rest
    exact .refl s

theorem advanceWhileOnward {more : Bool → UInt8 → Bool} {lines : UInt8 → Nat}
    (ran : s.advanceWhile more lines = .ok after) : Onward s after := by
  fun_induction advanceWhile more lines s with
  | case1 s ih =>
    obtain ⟨_, _, rest⟩ := bindInv ran
    split at rest
    · split at rest
      · rename_i moved
        exact (advanceOnward moved).trans ⟨(ih _ _ moved rest).text, (ih _ _ moved rest).curr⟩
      · cases rest
    · cases rest
      exact .refl _

theorem newlineFromOnward {i stop : Nat} (inside : i ≤ s.size) (ran : s.newlineFrom i = .ok stop) : i ≤ stop := by
  fun_induction newlineFrom s i with
  | case1 i _ ih =>
    obtain ⟨b, read, rest⟩ := bindInv ran
    split at rest
    · cases rest
      exact Nat.le_refl _
    · exact Nat.le_of_succ_le (ih (byteInside read) rest)
  | case2 i _ =>
    cases ran
    exact inside

theorem skipCommentOnward (ran : s.skipComment = .ok after) : Onward s after := by
  unfold skipComment at ran
  split at ran
  · rename_i inside
    obtain ⟨_, found, last⟩ := bindInv ran
    cases last
    exact ⟨rfl, newlineFromOnward inside found⟩
  · cases ran

theorem stringLiteralOnward (ran : s.stringLiteral = .ok (found, after)) : Onward s after := by
  obtain ⟨middle, looped, rest⟩ := bindInv ran
  split at rest
  · cases rest
    exact advanceWhileOnward looped
  · obtain ⟨_, closed, rest⟩ := bindInv rest
    obtain ⟨_, _, last⟩ := bindInv rest
    cases last
    exact (advanceWhileOnward looped).trans (advanceOnward closed)

theorem fractionDigitsOnward (ran : s.fractionDigits = .ok after) : Onward s after := by
  obtain ⟨_, _, rest⟩ := bindInv ran
  obtain ⟨_, _, rest⟩ := bindInv rest
  split at rest
  · obtain ⟨_, point, digits⟩ := bindInv rest
    exact (advanceOnward point).trans (advanceWhileOnward digits)
  · cases rest
    exact .refl s

theorem numberLiteralOnward (ran : s.numberLiteral = .ok (found, after)) : Onward s after := by
  obtain ⟨_, whole, rest⟩ := bindInv ran
  obtain ⟨_, fraction, rest⟩ := bindInv rest
  obtain ⟨_, _, last⟩ := bindInv rest
  cases last
  exact (advanceWhileOnward whole).trans (fractionDigitsOnward fraction)

theorem wordOnward (ran : s.word = .ok (found, after)) : Onward s after := by
  obtain ⟨_, letters, rest⟩ := bindInv ran
  obtain ⟨_, _, last⟩ := bindInv rest
  cases last
  exact advanceWhileOnward letters

theorem unexpectedOnward (ran : s.unexpected = .ok (found, after)) : Onward s after := by
  obtain ⟨_, bytes, rest⟩ := bindInv ran
  obtain ⟨_, _, last⟩ := bindInv rest
  cases last
  exact advanceWhileOnward bytes

theorem slashOnward (ran : s.slash = .ok (found, after)) : Onward s after := by
  obtain ⟨⟨twice, middle⟩, second, rest⟩ := bindInv ran
  cases twice with
  | true =>
    obtain ⟨_, comment, last⟩ := bindInv rest
    cases last
    exact (matchByteOnward second).trans (skipCommentOnward comment)
  | false =>
    cases rest
    exact matchByteOnward second

theorem symbolOnward {one double : Option Symbol} (ran : s.symbol one double = .ok (found, after)) :
    Onward s after := by
  unfold symbol at ran
  split at ran
  · obtain ⟨_, second, last⟩ := bindInv ran
    cases last
    exact matchByteOnward second
  · cases ran
    exact .refl s
  · exact unexpectedOnward ran

theorem scanAfterOnward {b : UInt8} (ran : s.scanAfter b = .ok (found, after)) : Onward s after := by
  simp only [scanAfter] at ran
  split at ran
  · cases ran
    exact ⟨rfl, Nat.le_refl _⟩
  split at ran
  · exact stringLiteralOnward ran
  split at ran
  · exact numberLiteralOnward ran
  split at ran
  · exact wordOnward ran
  split at ran
  · exact slashOnward ran
  · exact symbolOnward ran

theorem scanTokenOnward (ran : s.scanToken = .ok (found, after)) : after.text = s.text ∧ s.curr < after.curr := by
  obtain ⟨_, first, rest⟩ := bindInv ran
  obtain ⟨-, moved⟩ := advanceInv first
  have onward := scanAfterOnward rest
  rw [moved] at onward
  exact ⟨onward.text, onward.curr⟩

end

def next (s : Scanner) : Except AccessFault (Option Item × Scanner) :=
  if s.curr ≤ s.size then
    if s.curr = s.size then
      .ok (some (.token ⟨.eof, "", s.line⟩), { s with curr := s.curr + 1 })
    else match _ran : { s with start := s.curr }.scanToken with
      | .ok (.layout, after) => next after
      | .ok (.kind k, after) => do
        let text ← after.lexeme
        return (some (.token ⟨k, text, after.line⟩), after)
      | .ok (.fault f, after) => .ok (some (.error ⟨after.line, f⟩), after)
      | .error fault => .error fault
  else .ok (none, s)
termination_by s.size + 1 - s.curr
decreasing_by
  obtain ⟨text, moved⟩ := scanTokenOnward _ran
  simp only [size, text] at *
  omega

theorem nextOnward {s after : Scanner} {item : Item} (ran : s.next = .ok (some item, after)) :
    after.text = s.text ∧ s.curr < after.curr ∧ s.curr ≤ s.size := by
  fun_induction next s with
  | case1 s =>
    cases ran
    exact ⟨rfl, Nat.lt_succ_self _, by assumption⟩
  | case2 s inside _ middle token ih =>
    obtain ⟨text, moved⟩ := scanTokenOnward token
    obtain ⟨textAfter, movedAfter, -⟩ := ih ran
    exact ⟨textAfter.trans text, Nat.lt_trans moved movedAfter, inside⟩
  | case3 s inside _ k middle token =>
    obtain ⟨_, _, last⟩ := bindInv ran
    cases last
    exact ⟨(scanTokenOnward token).1, (scanTokenOnward token).2, inside⟩
  | case4 s inside _ f middle token =>
    cases ran
    exact ⟨(scanTokenOnward token).1, (scanTokenOnward token).2, inside⟩
  | case5 => cases ran
  | case6 => cases ran

def collect (s : Scanner) : Except AccessFault (List Item × Scanner) :=
  match _ran : s.next with
  | .ok (some item, after) => do
    let (items, stop) ← collect after
    return (item :: items, stop)
  | .ok (none, after) => .ok ([], after)
  | .error fault => .error fault
termination_by s.size + 1 - s.curr
decreasing_by
  obtain ⟨text, moved, inside⟩ := nextOnward _ran
  simp only [size, text] at *
  omega

end Scanner
end Treewalk
