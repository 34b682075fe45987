import Treewalk.Token
import Treewalk.Diagnostic

/-! Scanning: a source text becomes tokens and lexical errors in their order. Layout is cut off first,
then one lexeme; both cuts return the rest of the text, and the second always shortens it. -/
namespace Treewalk

def isNameStart (c : Char) : Bool := c.isAlpha || c == '_'

def isNamePart (c : Char) : Bool := c.isAlphanum || c == '_'

def isBlank (c : Char) : Bool := c == ' ' || c == '\r' || c == '\t' || c == '\n'

def newlines (cs : List Char) : Nat := cs.count '\n'

structure Cut where
  text : List Char
  rest : List Char
  deriving DecidableEq, Repr

/-- Layout at the start: blanks and comments. A comment ends before its newline. -/
def layout (inComment : Bool) : List Char → Cut
  | [] => ⟨[], []⟩
  | c :: cs =>
    if inComment then
      let tail := layout (c != '\n') cs
      ⟨c :: tail.text, tail.rest⟩
    else if isBlank c then
      let tail := layout false cs
      ⟨c :: tail.text, tail.rest⟩
    else match c, cs with
      | '/', '/' :: after =>
        let tail := layout true after
        ⟨'/' :: '/' :: tail.text, tail.rest⟩
      | _, _ => ⟨[], c :: cs⟩

structure Lexeme where
  meaning : Except LexicalFault Kind
  text : List Char
  rest : List Char

namespace Lexeme

def string (cs : List Char) : Lexeme :=
  let contents := cs.takeWhile (· != '"')
  match cs.dropWhile (· != '"') with
  | [] => ⟨.error .unterminatedString, '"' :: contents, []⟩
  | _ :: rest => ⟨.ok (.string (String.ofList contents)), '"' :: contents ++ ['"'], rest⟩

def fraction : List Char → Cut
  | '.' :: d :: after =>
    if d.isDigit then
      ⟨'.' :: (d :: after).takeWhile Char.isDigit, (d :: after).dropWhile Char.isDigit⟩
    else ⟨[], '.' :: d :: after⟩
  | cs => ⟨[], cs⟩

def number (cs : List Char) : Lexeme :=
  let whole := cs.takeWhile Char.isDigit
  let tail := fraction (cs.dropWhile Char.isDigit)
  ⟨.ok (.number (Number.ofDigits whole (tail.text.drop 1))), whole ++ tail.text, tail.rest⟩

def word (cs : List Char) : Lexeme :=
  let text := cs.takeWhile isNamePart
  let kind := match Keyword.ofText? (String.ofList text) with
    | some k => .keyword k
    | none => .identifier
  ⟨.ok kind, text, cs.dropWhile isNamePart⟩

def symbol (s : Symbol) (rest : List Char) : Lexeme := ⟨.ok (.symbol s), s.text, rest⟩

def first (c : Char) (cs : List Char) : Lexeme :=
  if c == '"' then string cs
  else if c.isDigit then number (c :: cs)
  else if isNameStart c then word (c :: cs)
  else match Symbol.single? c, Symbol.withEqual? c, cs with
    | _, some double, '=' :: rest => symbol double rest
    | some one, _, rest => symbol one rest
    | none, _, rest => ⟨.error (.unexpectedCharacter c), [c], rest⟩

end Lexeme

theorem layoutAppend (inComment : Bool) (cs : List Char) :
    (layout inComment cs).text ++ (layout inComment cs).rest = cs := by
  fun_induction layout inComment cs with
  | case1 => rfl
  | case2 c cs tail ih => simpa using ih
  | case3 _ _ _ _ _ tail ih => simpa using ih
  | case4 _ _ after _ tail ih => simpa using ih
  | case5 => rfl

theorem Symbol.singleText {c : Char} {s : Symbol} (h : Symbol.single? c = some s) : s.text = [c] := by
  unfold Symbol.single? at h
  split at h <;> cases h <;> rfl

theorem Symbol.withEqualText {c : Char} {s : Symbol} (h : Symbol.withEqual? c = some s) :
    s.text = [c, '='] := by
  unfold Symbol.withEqual? at h
  split at h <;> cases h <;> rfl

namespace Lexeme

theorem stringAppend (cs : List Char) : (string cs).text ++ (string cs).rest = '"' :: cs := by
  have whole := List.takeWhile_append_dropWhile (p := (· != '"')) (l := cs)
  unfold string
  split <;> rename_i found <;> rw [found] at whole
  · simpa using whole
  · rename_i quote rest
    have isQuote : quote = '"' := by
      have stopped := List.head?_dropWhile_not (· != '"') cs
      rw [found] at stopped
      simpa using stopped
    subst isQuote
    simpa using whole

theorem fractionAppend (cs : List Char) : (fraction cs).text ++ (fraction cs).rest = cs := by
  unfold fraction
  split
  · split
    · simp only [List.cons_append, List.takeWhile_append_dropWhile]
    · rfl
  · rfl

theorem numberAppend (cs : List Char) : (number cs).text ++ (number cs).rest = cs := by
  simp only [number, List.append_assoc, fractionAppend, List.takeWhile_append_dropWhile]

theorem wordAppend (cs : List Char) : (word cs).text ++ (word cs).rest = cs := by
  simp only [word, List.takeWhile_append_dropWhile]

theorem firstAppend (c : Char) (cs : List Char) :
    (first c cs).text ++ (first c cs).rest = c :: cs := by
  unfold first
  split
  · rename_i quote
    rw [stringAppend, eq_of_beq quote]
  · split
    · exact numberAppend (c :: cs)
    · split
      · exact wordAppend (c :: cs)
      · split
        · rename_i two
          simp [symbol, Symbol.withEqualText two]
        · rename_i one _
          simp [symbol, Symbol.singleText one]
        · rfl

theorem firstNonempty (c : Char) (cs : List Char) : (first c cs).text ≠ [] := by
  unfold first
  split
  · unfold string
    split <;> simp
  · split
    · rename_i digit
      simp [number, digit]
    · split
      · rename_i start
        have part : isNamePart c = true := by
          simp only [isNameStart, isNamePart, Char.isAlphanum, Bool.or_eq_true] at start ⊢
          exact start.imp_left Or.inl
        simp [word, part]
      · split
        · rename_i two
          simp [symbol, Symbol.withEqualText two]
        · rename_i one _
          simp [symbol, Symbol.singleText one]
        · simp

theorem firstShortens (c : Char) (cs : List Char) : (first c cs).rest.length < (c :: cs).length := by
  have whole := congrArg List.length (firstAppend c cs)
  have some := List.length_pos_iff.mpr (firstNonempty c cs)
  rw [List.length_append] at whole
  omega

end Lexeme

inductive Item where
  | token (t : Token)
  | error (e : LexicalError)
  deriving DecidableEq, Repr

namespace Item

def ofLexeme (l : Lexeme) (line : Nat) : Item :=
  match l.meaning with
  | .ok kind => .token ⟨kind, String.ofList l.text, line⟩
  | .error fault => .error ⟨line, fault⟩

def token? : Item → Option Token
  | .token t => some t
  | .error _ => none

def error? : Item → Option LexicalError
  | .token _ => none
  | .error e => some e

end Item

/-- Scans from a line on. The last item, and only that, is the end of the text. -/
def scanFrom (line : Nat) (cs : List Char) : List Item :=
  let gap := layout false cs
  let start := line + newlines gap.text
  match _found : gap.rest with
  | [] => [.token ⟨.eof, "", start⟩]
  | c :: rest =>
    let l := Lexeme.first c rest
    let stop := start + newlines l.text
    Item.ofLexeme l stop :: scanFrom stop l.rest
termination_by cs.length
decreasing_by
  have whole := congrArg List.length (layoutAppend false cs)
  have shorter := Lexeme.firstShortens c rest
  rw [List.length_append, _found] at whole
  omega

def scan (source : String) : List Item := scanFrom 1 source.toList

end Treewalk
