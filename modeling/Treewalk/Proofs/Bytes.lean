import Mathlib.Algebra.GroupWithZero.Nat
import Treewalk.Token.Bytes

/-! The bytes of a text and what the scanner reads of them. A character below 128 is its own byte; all bytes of any
other are above, and only the first of them does not continue a character. -/
namespace Treewalk

def bytes (cs : List Char) : List UInt8 := cs.flatMap String.utf8EncodeChar

section Encoding

variable {c : Char}

@[simp] theorem bytesNil : bytes [] = [] := rfl

@[simp] theorem bytesCons (c : Char) (cs : List Char) : bytes (c :: cs) = String.utf8EncodeChar c ++ bytes cs := rfl

@[simp] theorem bytesAppend (first second : List Char) : bytes (first ++ second) = bytes first ++ bytes second :=
  List.flatMap_append

theorem encodedAscii (ascii : c.toNat < 128) : ∃ b, String.utf8EncodeChar c = [b] ∧ Char.ofUInt8 b = c := by
  have small : c.val.toNat ≤ 127 := Nat.le_of_lt_succ ascii
  refine ⟨UInt8.ofNat c.val.toNat, by simp only [String.utf8EncodeChar, small, if_true], Char.ext (UInt32.toNat.inj ?_)⟩
  change (UInt8.ofNat c.val.toNat).toUInt32.toNat = c.val.toNat
  simp only [UInt8.toNat_toUInt32, UInt8.toNat_ofNat']
  omega

theorem continuationLow (n : Nat) : Scanner.isContinuation (UInt8.ofNat (n % 64 + 128)) = true := by
  have all : ∀ i : Fin 64, Scanner.isContinuation (UInt8.ofNat (i.val + 128)) = true := by decide +kernel
  exact all ⟨n % 64, Nat.mod_lt n (by decide)⟩

theorem leadHigh (n : Nat) (low : n < 64) : Scanner.isContinuation (UInt8.ofNat (n + 192)) = false := by
  have all : ∀ i : Fin 64, Scanner.isContinuation (UInt8.ofNat (i.val + 192)) = false := by decide +kernel
  exact all ⟨n, low⟩

theorem continuationAbove {b : UInt8} (continues : Scanner.isContinuation b = true) : 128 ≤ b.toNat := by
  have all : ∀ i : Fin 256, Scanner.isContinuation (UInt8.ofNat i.val) = true → 128 ≤ i.val := by decide +kernel
  have found := all ⟨b.toNat, b.toNat_lt⟩
  simp only [UInt8.ofNat_toNat] at found
  exact found continues

theorem encodedWide (wide : 128 ≤ c.toNat) : ∃ lead tail, String.utf8EncodeChar c = lead :: tail ∧
    128 ≤ lead.toNat ∧ Scanner.isContinuation lead = false ∧ ∀ b ∈ tail, Scanner.isContinuation b = true := by
  have above : ¬ c.val.toNat ≤ 127 := Nat.not_le_of_lt wide
  have lead (n : Nat) (low : n < 64) : 128 ≤ (UInt8.ofNat (n + 192)).toNat := by
    rw [UInt8.toNat_ofNat']
    omega
  simp only [String.utf8EncodeChar, above, if_false]
  split
  · refine ⟨_, _, rfl, lead _ (by omega), leadHigh _ (by omega), ?_⟩
    simp only [List.mem_singleton, forall_eq, continuationLow]
  split
  · have value : c.val.toNat / 4096 % 16 + 224 = (c.val.toNat / 4096 % 16 + 32) + 192 := rfl
    rw [value]
    refine ⟨_, _, rfl, lead _ (by omega), leadHigh _ (by omega), ?_⟩
    simp only [List.mem_cons, List.not_mem_nil, or_false, forall_eq_or_imp, forall_eq, continuationLow, and_self]
  · have value : c.val.toNat / 262144 % 8 + 240 = (c.val.toNat / 262144 % 8 + 48) + 192 := rfl
    rw [value]
    refine ⟨_, _, rfl, lead _ (by omega), leadHigh _ (by omega), ?_⟩
    simp only [List.mem_cons, List.not_mem_nil, or_false, forall_eq_or_imp, forall_eq, continuationLow, and_self]

theorem encodedAbove (wide : 128 ≤ c.toNat) {b : UInt8} (mem : b ∈ String.utf8EncodeChar c) : 128 ≤ b.toNat := by
  obtain ⟨lead, tail, encoded, high, -, continues⟩ := encodedWide wide
  rw [encoded] at mem
  rcases List.mem_cons.mp mem with rfl | later
  · exact high
  · exact continuationAbove (continues b later)

theorem encodedFirst (c : Char) : ∃ lead tail, String.utf8EncodeChar c = lead :: tail ∧
    Scanner.isContinuation lead = false ∧ ∀ b ∈ tail, Scanner.isContinuation b = true := by
  by_cases ascii : c.toNat < 128
  · obtain ⟨b, encoded, same⟩ := encodedAscii ascii
    refine ⟨b, [], encoded, Bool.eq_false_iff.mpr fun continues => ?_, by simp⟩
    have above := continuationAbove continues
    have value : (Char.ofUInt8 b).toNat = b.toNat := UInt8.toNat_toUInt32 b
    rw [same] at value
    omega
  · obtain ⟨lead, tail, encoded, -, starts, continues⟩ := encodedWide (Nat.le_of_not_lt ascii)
    exact ⟨lead, tail, encoded, starts, continues⟩

/- A test of bytes that tells characters apart: it says the same of every byte of a character as the test of
characters says of the character. -/
def Tells (ofByte : UInt8 → Bool) (ofChar : Char → Bool) : Prop :=
  ∀ c, ∀ b ∈ String.utf8EncodeChar c, ofByte b = ofChar c

theorem tellsAscii (ofChar : Char → Bool) {other : Bool} (above : ∀ c : Char, 128 ≤ c.toNat → ofChar c = other) :
    Tells (fun b => ofChar (Char.ofUInt8 b)) ofChar := by
  intro c b mem
  by_cases ascii : c.toNat < 128
  · obtain ⟨only, encoded, same⟩ := encodedAscii ascii
    rw [encoded, List.mem_singleton] at mem
    rw [mem]
    exact congrArg ofChar same
  · have wide := Nat.le_of_not_lt ascii
    rw [above c wide]
    exact above _ (encodedAbove wide mem)

theorem aboveBeq {expected : Char} (ascii : expected.toNat < 128) (c : Char) (wide : 128 ≤ c.toNat) :
    (c == expected) = false := by
  refine beq_false_of_ne fun same => ?_
  subst same
  omega

theorem tellsIs {expected : Char} (ascii : expected.toNat < 128) :
    Tells (fun b => Char.ofUInt8 b == expected) (· == expected) :=
  tellsAscii (· == expected) (aboveBeq ascii)

theorem tellsIsNot {expected : Char} (ascii : expected.toNat < 128) :
    Tells (fun b => Char.ofUInt8 b != expected) (· != expected) :=
  tellsAscii (· != expected) fun c wide => congrArg not (aboveBeq ascii c wide)

theorem tellsTaken {ofByte : UInt8 → Bool} {ofChar : Char → Bool} (tells : Tells ofByte ofChar) (cs : List Char) :
    (bytes cs).takeWhile ofByte = bytes (cs.takeWhile ofChar) := by
  induction cs with
  | nil => rfl
  | cons c cs ih =>
    cases passed : ofChar c with
    | true =>
      rw [bytesCons, List.takeWhile_append_of_pos fun b mem => (tells c b mem).trans passed, ih,
        List.takeWhile_cons_of_pos passed, bytesCons]
    | false =>
      obtain ⟨lead, tail, encoded, -⟩ := encodedFirst c
      have stopped : ofByte lead = false := by
        rw [tells c lead (by rw [encoded]; exact List.mem_cons_self), passed]
      rw [bytesCons, encoded, List.cons_append, List.takeWhile_cons_of_neg (by simp [stopped]),
        List.takeWhile_cons_of_neg (by simp [passed]), bytesNil]

end Encoding

namespace Scanner

def raw (s : Scanner) : List UInt8 := bytes s.text.toList

def ahead (s : Scanner) : List UInt8 := s.raw.drop s.curr

theorem textBytes (text : String) : text.toByteArray = (bytes text.toList).toByteArray := String.utf8Encode_toList.symm

theorem sizeExact (s : Scanner) : s.size = s.raw.length := by
  have sizes := congrArg ByteArray.size (textBytes s.text)
  rwa [List.size_toByteArray] at sizes

theorem byteFound {s : Scanner} {i : Nat} {b : UInt8} (found : s.raw[i]? = some b) : s.byte i = .ok b := by
  obtain ⟨inside, same⟩ := List.getElem?_eq_some_iff.mp found
  have read : (⟨i⟩ : String.Pos.Raw) < s.text.rawEndPos := by
    change i < s.size
    rwa [sizeExact]
  rw [byte, dif_pos read]
  simp only [String.getUTF8Byte, textBytes, List.getElem_toByteArray]
  exact congrArg _ same

section

variable {s : Scanner} {b : UInt8} {rest : List UInt8}

theorem aheadFirst (next : s.ahead = b :: rest) : s.byte s.curr = .ok b ∧ s.curr < s.size := by
  have found : s.raw[s.curr]? = some b := by
    rw [← List.head?_drop]
    exact congrArg List.head? next
  refine ⟨byteFound found, ?_⟩
  rw [sizeExact]
  exact (List.getElem?_eq_some_iff.mp found).1

theorem endIff : s.atEnd = true ↔ s.ahead = [] := by
  rw [atEnd, ahead, decide_eq_true_iff, sizeExact, List.drop_eq_nil_iff]

theorem notAtEnd (next : s.ahead = b :: rest) : s.atEnd = false := by
  rw [Bool.eq_false_iff, Ne, endIff, next]
  exact List.cons_ne_nil b rest

theorem advanceFirst (next : s.ahead = b :: rest) : s.advance = .ok (b, { s with curr := s.curr + 1 }) := by
  rw [advance, (aheadFirst next).1]
  rfl

theorem aheadMoved (next : s.ahead = b :: rest) : { s with curr := s.curr + 1 }.ahead = rest := by
  change s.raw.drop (s.curr + 1) = rest
  rw [← List.drop_drop, show s.raw.drop s.curr = b :: rest from next, List.drop_one, List.tail_cons]

theorem peekExact (s : Scanner) : s.peek = .ok (s.ahead.headD 0) := by
  rw [peek]
  cases next : s.ahead with
  | nil => rw [if_pos (endIff.mpr next), List.headD_nil]
  | cons b rest => rw [notAtEnd next, if_neg Bool.false_ne_true, (aheadFirst next).1, List.headD_cons]

theorem peekNextMoved (s : Scanner) : s.peekNext = { s with curr := s.curr + 1 }.peek := by
  simp only [peekNext, peek, atEnd, decide_eq_true_eq]
  rfl

theorem matchByteMissing {expected : Char} (other : ∀ b ∈ s.ahead.head?, Char.ofUInt8 b ≠ expected) :
    s.matchByte expected = .ok (false, s) := by
  rw [matchByte, peekExact]
  cases next : s.ahead with
  | nil =>
    rw [endIff.mpr next]
    rfl
  | cons b rest =>
    have differs : (Char.ofUInt8 b == expected) = false := beq_false_of_ne (other b (by rw [next]; rfl))
    change (if (!s.atEnd && Char.ofUInt8 b == expected) = true then _ else _) = _
    rw [differs, Bool.and_false, if_neg Bool.false_ne_true]
    rfl

theorem matchByteFound {expected : Char} (next : s.ahead = b :: rest) (same : Char.ofUInt8 b = expected) :
    s.matchByte expected = .ok (true, { s with curr := s.curr + 1 }) := by
  rw [matchByte, peekExact, next]
  change (if (!s.atEnd && Char.ofUInt8 b == expected) = true then _ else _) = _
  rw [notAtEnd next, same, beq_self_eq_true, Bool.not_false, Bool.and_self, if_pos rfl, advanceFirst next]
  rfl

end

theorem advanceWhileExact (more : Bool → UInt8 → Bool) (stops : more true 0 = false) (lines : UInt8 → Nat)
    (s : Scanner) : s.advanceWhile more lines = .ok { s with
      curr := s.curr + (s.ahead.takeWhile (more false)).length
      line := s.line + ((s.ahead.takeWhile (more false)).map lines).sum } := by
  fun_induction advanceWhile more lines s with
  | case1 s ih =>
    rw [peekExact]
    change (if more s.atEnd (s.ahead.headD 0) = true then _ else _) = _
    cases next : s.ahead with
    | nil =>
      rw [endIff.mpr next, List.headD_nil, stops, if_neg Bool.false_ne_true]
      rfl
    | cons b rest =>
      rw [notAtEnd next, List.headD_cons]
      cases passed : more false b with
      | false =>
        rw [if_neg Bool.false_ne_true, List.takeWhile_cons_of_neg (by simp [passed])]
        rfl
      | true =>
        have after := ih _ _ (advanceFirst next)
        have later : ({ s with curr := s.curr + 1, line := s.line + lines b } : Scanner).ahead = rest := aheadMoved next
        rw [if_pos rfl, List.takeWhile_cons_of_pos passed]
        split
        · rename_i moved
          cases (advanceFirst next).symm.trans moved
          rw [after, later, List.length_cons, List.map_cons, List.sum_cons]
          simp only [Nat.add_assoc, Nat.add_comm 1]
        · rename_i failed
          cases (advanceFirst next).symm.trans failed

theorem newlineFromExact {s : Scanner} {i : Nat} (inside : i ≤ s.size) : s.newlineFrom i =
    .ok (i + ((s.raw.drop i).takeWhile (fun b => Char.ofUInt8 b != '\n')).length) := by
  fun_induction newlineFrom s i with
  | case1 i below ih =>
    rw [sizeExact] at below
    have read := byteFound (List.getElem?_eq_getElem below)
    rw [List.drop_eq_getElem_cons below, read]
    change (if (Char.ofUInt8 s.raw[i] == '\n') = true then _ else _) = _
    split
    · rename_i newline
      rw [List.takeWhile_cons_of_neg (by simpa using newline)]
      rfl
    · rename_i other
      rw [ih (byteInside read), List.takeWhile_cons_of_pos (by simpa using other), List.length_cons]
      congr 1
      omega
  | case2 i out =>
    rw [sizeExact] at out inside
    rw [List.drop_eq_nil_of_le (Nat.le_of_not_lt out), sizeExact]
    exact congrArg _ (Nat.le_antisymm (Nat.le_of_not_lt out) inside)

theorem boundary {text : String} {before later : List Char} (whole : text.toList = before ++ later) :
    String.Pos.Raw.IsValid text ⟨(bytes before).length⟩ := by
  refine String.Pos.Raw.isValid_iff_exists_append.mpr ⟨String.ofList before, String.ofList later, ?_, ?_⟩
  · rw [← String.ofList_append, ← whole, String.ofList_toList]
  · have measured : (bytes before).length = (String.ofList before).utf8ByteSize := by
      rw [← String.size_toByteArray, String.toByteArray_ofList]
      exact List.size_toByteArray.symm
    rw [measured]
    rfl

theorem sliceExact {s : Scanner} {before piece later : List Char} (whole : s.text.toList = before ++ piece ++ later) :
    s.slice (bytes before).length ((bytes before).length + (bytes piece).length) = .ok (String.ofList piece) := by
  have first := boundary (whole.trans (List.append_assoc before piece later))
  have stop := boundary whole
  rw [bytesAppend, List.length_append] at stop
  rw [slice, dif_pos ⟨first, stop, Nat.le_add_right _ _⟩]
  congr 1
  apply String.toByteArray_inj.mp
  have parts : s.text.toByteArray =
      (bytes before).toByteArray ++ ((bytes piece).toByteArray ++ (bytes later).toByteArray) := by
    rw [textBytes, whole, List.append_assoc, bytesAppend, bytesAppend, List.toByteArray_append, List.toByteArray_append]
  have cut := ByteArray.extract_append_size_add (a := (bytes before).toByteArray)
    (b := (bytes piece).toByteArray ++ (bytes later).toByteArray) (i := 0) (j := (bytes piece).length)
  rw [List.size_toByteArray, ByteArray.extract_append_eq_left List.size_toByteArray.symm] at cut
  rw [String.toByteArray_extract, parts, String.toByteArray_ofList]
  exact cut

end Scanner
end Treewalk
