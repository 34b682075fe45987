import Treewalk.Proofs.Words.Pieces

/-! Words written one after another with layout between them. A word that a blank follows is cut off as it stands, and
the layout after it is skipped; so a text made of the lexemes of another has the same tokens, whatever layout was
chosen. -/
namespace Treewalk

inductive Spacing : List Char → Prop where
  | nil : Spacing []
  | blank {c : Char} {cs : List Char} (blank : Blank c) (tail : Spacing cs) : Spacing (c :: cs)
  | comment {body cs : List Char} (inner : '\n' ∉ body) (tail : Spacing cs) :
      Spacing ('/' :: '/' :: (body ++ '\n' :: cs))

/- A comment right after a slash would not be one. -/
def Separator (cs : List Char) : Prop := ∃ b tail, cs = b :: tail ∧ Blank b ∧ Spacing tail

inductive Spread : List Token → List Char → Prop where
  | nil : Spread [] []
  | one (t : Token) : Spread [t] t.lexeme.toList
  | more {t u : Token} {ts : List Token} {sep cs : List Char} (between : Separator sep) (tail : Spread (u :: ts) cs) :
      Spread (t :: u :: ts) (t.lexeme.toList ++ (sep ++ cs))

def wordsOf (source : String) : List Token := ((scan source).filterMap Item.token?).filter (fun t => t.kind != .eof)

def Token.content (t : Token) : Kind × String := (t.kind, t.lexeme)

theorem spacingLaid {sep : List Char} (spacing : Spacing sep) (rest : List Char) : Layout sep rest := by
  induction spacing with
  | nil => exact .nil
  | blank blank tail ih => exact .blank blank ih
  | comment inner tail ih =>
    exact .comment inner (fun c same => (Option.some.inj same).symm) (.blank (by simp [Blank]) ih)

theorem separatorLaid {sep : List Char} (between : Separator sep) (rest : List Char) : Layout sep rest := by
  obtain ⟨b, tail, rfl, blank, spacing⟩ := between
  exact .blank blank (spacingLaid spacing rest)

section Parted
variable {text rest : List Char} {kind : Kind} (w : Word text kind) (parted : ∀ b ∈ rest.head?, Blank b)
include w parted

theorem partedFirst : ∃ c cs, text = c :: cs ∧ Lexeme.first c (cs ++ rest) = ⟨.ok kind, text, rest⟩ := by
  obtain ⟨c, cs, rfl, cut⟩ := Lexeme.wordCut w
  refine ⟨c, cs, rfl, ?_⟩
  cases rest with
  | nil => rwa [List.append_nil]
  | cons b later =>
    rw [Lexeme.firstSeam later (blankExact.mpr (parted b rfl)) (congrArg Lexeme.meaning cut), cut]
    rfl

theorem partedSolid : Solid (text ++ rest) := by
  obtain ⟨c, cs, rfl, cut⟩ := partedFirst w parted
  constructor
  · intro b same blank
    cases same
    rcases blank with rfl | rfl | rfl | rfl <;> cases cut
  · -- a slash is a word by itself, so the second one would be the blank
    rintro ⟨more, same⟩
    obtain ⟨rfl, after⟩ := List.cons.inj same
    have alone : Lexeme.first '/' (cs ++ rest) = .symbol .slash (cs ++ rest) := rfl
    have whole : cs ++ rest = rest := congrArg Lexeme.rest (alone.symm.trans cut)
    have slash : rest = '/' :: more := whole.symm.trans after.symm
    have blank := parted '/' (by rw [slash]; rfl)
    exact absurd (blankExact.mpr blank) (by decide)

theorem scanFromWord (line : Nat) : scanFrom line (text ++ rest) =
    .token ⟨kind, String.ofList text, line + newlines text⟩ :: scanFrom (line + newlines text) rest := by
  have none := layoutSolid (partedSolid w parted)
  obtain ⟨c, cs, rfl, cut⟩ := partedFirst w parted
  have found : (layout false (c :: cs ++ rest)).rest = c :: (cs ++ rest) := congrArg Cut.rest none
  rw [scanFromFirst line found, none, cut]
  rfl

end Parted

theorem spreadSolid {t : Token} {ts : List Token} {cs : List Char} (w : Word t.lexeme.toList t.kind)
    (spread : Spread (t :: ts) cs) : Solid cs := by
  cases spread with
  | one =>
    have alone : Solid (t.lexeme.toList ++ []) := partedSolid w (by simp)
    rwa [List.append_nil] at alone
  | more between tail =>
    obtain ⟨b, sep, rfl, blank, -⟩ := between
    exact partedSolid w (fun c same => Option.some.inj same ▸ blank)

theorem spreadScanned {ts : List Token} {cs : List Char} (spread : Spread ts cs)
    (words : ∀ t ∈ ts, Word t.lexeme.toList t.kind) (line : Nat) : ∃ (again : List Token) (last : Nat),
      scanFrom line cs = again.map Item.token ++ [.token ⟨.eof, "", last⟩] ∧
      again.map Token.content = ts.map Token.content := by
  induction spread generalizing line with
  | nil => exact ⟨[], line, scanFromEnd line rfl, rfl⟩
  | one t =>
    have w := words t List.mem_cons_self
    have cut : scanFrom line (t.lexeme.toList ++ []) = _ := scanFromWord w (by simp) line
    have done : scanFrom (line + newlines t.lexeme.toList) [] = _ := scanFromEnd _ rfl
    rw [List.append_nil, done, String.ofList_toList] at cut
    exact ⟨[_], _, cut, rfl⟩
  | @more t u ts sep cs between tail ih =>
    have w := words t List.mem_cons_self
    have others : ∀ t ∈ u :: ts, Word t.lexeme.toList t.kind := fun t member => words t (List.mem_cons_of_mem _ member)
    have solid := spreadSolid (others u List.mem_cons_self) tail
    have skipped := layoutExact (separatorLaid between cs) solid
    have parted : ∀ b ∈ (sep ++ cs).head?, Blank b := by
      obtain ⟨b, rest, rfl, blank, -⟩ := between
      exact fun c same => Option.some.inj same ▸ blank
    have next : scanFrom (line + newlines t.lexeme.toList) (sep ++ cs) =
        scanFrom (line + newlines t.lexeme.toList + newlines sep) cs := by
      apply scanFromLayout <;> rw [skipped, layoutSolid solid]
      rfl
    obtain ⟨again, last, same, contents⟩ := ih others (line + newlines t.lexeme.toList + newlines sep)
    refine ⟨⟨t.kind, t.lexeme, line + newlines t.lexeme.toList⟩ :: again, last, ?_, ?_⟩
    · rw [scanFromWord w parted, next, same, String.ofList_toList]
      rfl
    · rw [List.map_cons, List.map_cons, contents]
      rfl

theorem wordsAreWords {source : String} {t : Token} (member : t ∈ wordsOf source) : Word t.lexeme.toList t.kind := by
  obtain ⟨scanned, kind⟩ := List.mem_filter.mp member
  obtain ⟨item, found, same⟩ := List.mem_filterMap.mp scanned
  obtain ⟨pieces, cut, -, items⟩ := scanFromPieces 1 source.toList
  rw [scan, items, List.mem_append, List.mem_singleton] at found
  rcases found with inner | rfl
  · cases item with
    | token u =>
      cases same
      exact piecesWords cut inner
    | error e => cases same
  · cases same
    simp at kind

/- Text with the same words in a layout of its own has no errors and the same tokens. -/
theorem layoutDoesNotMatter {source text : String} (spread : Spread (wordsOf source) text.toList) :
    ∃ (again : List Token) (last : Nat), scan text = again.map Item.token ++ [.token ⟨.eof, "", last⟩] ∧
      again.map Token.content = (wordsOf source).map Token.content :=
  spreadScanned spread (fun _ member => wordsAreWords member) 1

/- Numbers that points follow, a fault, a string with slashes in it, a slash and a comment. -/
def denseText : String := "1.5.2@\"a//\n\"/x//y"

def looseText : String := "1.5\t. //;\n2\n\"a//\n\" / //\n\r\n//z\nx"

theorem denseWords : wordsOf denseText = [⟨.number (Number.ofDigits ['1'] ['5']), "1.5", 1⟩, ⟨.symbol .dot, ".", 1⟩,
    ⟨.number (Number.ofDigits ['2'] []), "2", 1⟩, ⟨.string "a//\n", "\"a//\n\"", 2⟩, ⟨.symbol .slash, "/", 2⟩,
    ⟨.identifier, "x", 2⟩] := by decide +kernel

theorem looseSpread : Spread (wordsOf denseText) looseText.toList := by
  have single {b : Char} (blank : isBlank b = true) : Separator [b] := ⟨b, [], rfl, blankExact.mp blank, .nil⟩
  have note : Spacing ('/' :: '/' :: ([';'] ++ '\n' :: [])) := .comment (by decide) .nil
  have last : Spacing ('/' :: '/' :: (['z'] ++ '\n' :: [])) := .comment (by decide) .nil
  have notes : Spacing ('/' :: '/' :: ([] ++ '\n' :: '\r' :: '\n' :: _)) :=
    .comment (by decide) (.blank (by simp [Blank]) (.blank (by simp [Blank]) last))
  have spaced {cs : List Char} (spacing : Spacing cs) : Separator (' ' :: cs) := ⟨' ', cs, rfl, .inl rfl, spacing⟩
  rw [denseWords]
  exact .more (single (b := '\t') rfl) (.more (spaced note) (.more (single (b := '\n') rfl)
    (.more (single (b := ' ') rfl) (.more (spaced notes) (.one ⟨.identifier, "x", 2⟩)))))

theorem denseTextRescanned : Spread (wordsOf denseText) looseText.toList ∧ ∃ (again : List Token) (last : Nat),
    scan looseText = again.map Item.token ++ [.token ⟨.eof, "", last⟩] ∧
      again.map Token.content = (wordsOf denseText).map Token.content :=
  ⟨looseSpread, layoutDoesNotMatter looseSpread⟩

end Treewalk
