/-! Reading UTF-8 byte by byte. Bytes that are no text are reported with the place where the first bad sequence
starts and with its length. -/
namespace Treewalk.Utf8

inductive Fault where
  /-- The sequence at `index` cannot go on after `length` bytes. A byte that starts no sequence counts as one. -/
  | invalid (index length : Nat)
  /-- The bytes end inside the sequence at `index`. -/
  | incomplete (index : Nat)
  deriving DecidableEq, Repr

namespace Fault

def message : Fault → String
  | invalid index length =>
    "invalid utf-8 sequence of " ++ Nat.repr length ++ " bytes from index " ++ Nat.repr index
  | incomplete index => "incomplete utf-8 byte sequence from index " ++ Nat.repr index

end Fault

/-- A character of which some bytes are read: its bits so far, the number of those bytes, the number of bytes still
to come after the next one, and the range of the next one. -/
structure Pending where
  bits : Nat
  read : Nat
  further : Nat
  low : Nat
  high : Nat
  deriving DecidableEq, Repr

inductive Step where
  | character (c : Char)
  | pending (p : Pending)
  | refused
  deriving DecidableEq, Repr

/-- The first byte of a character. The range of the byte after it leaves out overlong forms, surrogates and what is
above the last character. -/
def first (byte : Nat) : Step :=
  if byte < 0x80 then .character (Char.ofNat byte)
  else if byte < 0xC2 then .refused
  else if byte < 0xE0 then .pending ⟨byte - 0xC0, 1, 0, 0x80, 0xBF⟩
  else if byte = 0xE0 then .pending ⟨0, 1, 1, 0xA0, 0xBF⟩
  else if byte = 0xED then .pending ⟨0xD, 1, 1, 0x80, 0x9F⟩
  else if byte < 0xF0 then .pending ⟨byte - 0xE0, 1, 1, 0x80, 0xBF⟩
  else if byte = 0xF0 then .pending ⟨0, 1, 2, 0x90, 0xBF⟩
  else if byte < 0xF4 then .pending ⟨byte - 0xF0, 1, 2, 0x80, 0xBF⟩
  else if byte = 0xF4 then .pending ⟨4, 1, 2, 0x80, 0x8F⟩
  else .refused

def Pending.next (p : Pending) (byte : Nat) : Step :=
  if p.low ≤ byte ∧ byte ≤ p.high then
    let bits := 64 * p.bits + (byte - 0x80)
    match p.further with
    | 0 => .character (Char.ofNat bits)
    | further + 1 => .pending ⟨bits, p.read + 1, further, 0x80, 0xBF⟩
  else .refused

def decodeFrom (index : Nat) (pending : Option Pending) (read : List Char) : List UInt8 → Except Fault String
  | [] =>
    match pending with
    | none => .ok (String.ofList read.reverse)
    | some _ => .error (.incomplete index)
  | byte :: rest =>
    let held := (pending.map Pending.read).getD 0
    let step := match pending with
      | none => first byte.toNat
      | some p => p.next byte.toNat
    match step with
    | .character c => decodeFrom (index + held + 1) none (c :: read) rest
    | .pending p => decodeFrom index (some p) read rest
    | .refused => .error (.invalid index (max held 1))

def decode (bytes : List UInt8) : Except Fault String := decodeFrom 0 none [] bytes

end Treewalk.Utf8
