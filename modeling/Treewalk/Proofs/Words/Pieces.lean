import Mathlib.Data.List.Chain
import Treewalk.Proofs.Words

/-! Texts cut into pieces, each the layout before an item and the stretch that the item stands for. Every text has one
such cutting, its items are those that the scanner finds, and the line of each is the line that its stretch ends on. -/
namespace Treewalk

inductive Layout : List Char → List Char → Prop where
  | nil {rest : List Char} : Layout [] rest
  | blank {c : Char} {gap rest : List Char} (blank : Blank c) (tail : Layout gap rest) : Layout (c :: gap) rest
  | comment {body gap rest : List Char} (inner : '\n' ∉ body) (stops : ∀ c ∈ (gap ++ rest).head?, c = '\n')
      (tail : Layout gap rest) : Layout ('/' :: '/' :: (body ++ gap)) rest

def Solid (text : List Char) : Prop := (∀ c ∈ text.head?, ¬ Blank c) ∧ ¬ ['/', '/'] <+: text

section Gaps

theorem solidEnd : Solid [] := by
  simp [Solid]

theorem layoutSolid {text : List Char} (solid : Solid text) : layout false text = ⟨[], text⟩ := by
  cases text with
  | nil => rfl
  | cons c cs =>
    refine layoutNone (mt blankExact.mp (solid.1 c rfl)) fun after slash same => solid.2 ?_
    rw [slash, same]
    exact List.prefix_append ['/', '/'] after

theorem layoutBody {body : List Char} (inner : '\n' ∉ body) {more : List Char} (stops : ∀ c ∈ more.head?, c = '\n') :
    layout true (body ++ more) = ⟨body ++ (layout false more).text, (layout false more).rest⟩ := by
  induction body with
  | nil =>
    cases more with
    | nil => rfl
    | cons c cs =>
      cases stops c rfl
      exact (layoutComment '\n' cs).trans (layoutBlank rfl cs).symm
  | cons c body ih =>
    have other : (c != '\n') = true := bne_iff_ne.mpr (List.ne_of_not_mem_cons inner).symm
    rw [List.cons_append, layoutComment, other, ih (List.not_mem_of_not_mem_cons inner)]
    rfl

theorem layoutExact {gap rest : List Char} (laid : Layout gap rest) (solid : Solid rest) :
    layout false (gap ++ rest) = ⟨gap, rest⟩ := by
  induction laid with
  | nil => exact layoutSolid solid
  | blank blank tail ih => rw [List.cons_append, layoutBlank (blankExact.mpr blank), ih solid]
  | comment inner stops tail ih =>
    rw [List.cons_append, List.cons_append, List.append_assoc, layoutSlashes, layoutBody inner stops, ih solid]

def CommentRest (text rest : List Char) : Prop :=
  ∃ body gap, text = body ++ gap ∧ '\n' ∉ body ∧ (∀ c ∈ (gap ++ rest).head?, c = '\n') ∧ Layout gap rest

theorem CommentRest.cons {c : Char} (other : c ≠ '\n') {text rest : List Char} (tail : CommentRest text rest) :
    CommentRest (c :: text) rest := by
  obtain ⟨body, gap, rfl, inner, stops, laid⟩ := tail
  exact ⟨c :: body, gap, rfl, List.not_mem_cons_of_ne_of_not_mem other.symm inner, stops, laid⟩

theorem layoutSound (inComment : Bool) (cs : List Char) : Solid (layout inComment cs).rest ∧
    cond inComment (CommentRest (layout inComment cs).text (layout inComment cs).rest)
      (Layout (layout inComment cs).text (layout inComment cs).rest) := by
  fun_induction layout inComment cs with
  | case1 inComment =>
    refine ⟨solidEnd, ?_⟩
    cases inComment with
    | false => exact .nil
    | true => exact ⟨[], [], rfl, List.not_mem_nil, by simp, .nil⟩
  | case2 c cs tail ih =>
    refine ⟨ih.1, ?_⟩
    by_cases newline : c = '\n'
    · subst newline
      have laid : Layout ('\n' :: tail.text) tail.rest := .blank (by simp [Blank]) ih.2
      exact ⟨[], '\n' :: tail.text, rfl, List.not_mem_nil, fun c same => (Option.some.inj same).symm, laid⟩
    · have other : (c != '\n') = true := bne_iff_ne.mpr newline
      simp only [tail, other, cond_true] at ih ⊢
      exact ih.2.cons newline
  | case3 inComment c cs outside blank tail ih =>
    simp only [Bool.not_eq_true] at outside
    subst outside
    exact ⟨ih.1, .blank (blankExact.mp blank) ih.2⟩
  | case4 inComment outside after tail _ ih =>
    simp only [Bool.not_eq_true] at outside
    subst outside
    obtain ⟨solid, body, gap, same, inner, stops, laid⟩ := ih
    have whole := Layout.comment inner stops laid
    rw [← same] at whole
    exact ⟨solid, whole⟩
  | case5 inComment c cs outside solid code =>
    simp only [Bool.not_eq_true] at outside
    subst outside
    refine ⟨⟨fun d same => ?_, fun slashes => ?_⟩, .nil⟩
    · cases same
      exact mt blankExact.mpr solid
    · obtain ⟨after, same⟩ := slashes
      cases same
      exact code after rfl rfl

theorem layoutLaid (cs : List Char) : Layout (layout false cs).text (layout false cs).rest :=
  (layoutSound false cs).2

end Gaps

structure Piece where
  gap : List Char
  span : List Char
  item : Item
  deriving DecidableEq, Repr

namespace Piece

def text (p : Piece) : List Char := p.gap ++ p.span

def place (p : Piece) : List Char × List Char := (p.gap, p.span)

end Piece

def joined (pieces : List Piece) : List Char := pieces.flatMap Piece.text

def Item.Stands (span rest : List Char) : Item → Prop
  | .token t => t.lexeme.toList = span ∧ Word span t.kind ∧ Longest span rest
  | .error ⟨_, .unexpectedCharacter c⟩ => span = [c] ∧ ∀ text kind, Word text kind → text.head? ≠ some c
  | .error ⟨_, .unterminatedString⟩ => (∃ inner, span = '"' :: inner ∧ '"' ∉ inner) ∧ rest = []

inductive Pieces : List Char → List Piece → Prop where
  | done {gap : List Char} (laid : Layout gap []) : Pieces gap []
  | piece {p : Piece} {rest : List Char} {pieces : List Piece} (laid : Layout p.gap (p.span ++ rest))
      (solid : Solid (p.span ++ rest)) (stands : p.item.Stands p.span rest) (tail : Pieces rest pieces) :
      Pieces (p.gap ++ (p.span ++ rest)) (p :: pieces)

theorem firstStands (c : Char) (cs : List Char) (line : Nat) :
    (Item.ofLexeme (.first c cs) line).Stands (Lexeme.first c cs).text (Lexeme.first c cs).rest := by
  cases meaning : (Lexeme.first c cs).meaning with
  | ok kind =>
    simp only [Item.ofLexeme, meaning, Item.Stands]
    refine ⟨String.toList_ofList, Lexeme.firstWord meaning, fun other kind w begins => ?_⟩
    rw [Lexeme.firstAppend] at begins
    exact (Lexeme.firstLongest w begins).2.length_le
  | error fault =>
    simp only [Item.ofLexeme, meaning]
    rcases Lexeme.firstFault meaning with ⟨rfl, same, starts⟩ | ⟨rfl, same, inner, ends⟩
    · exact ⟨same, starts⟩
    · exact ⟨⟨cs, same, inner⟩, ends⟩

theorem unexpectedFirst {c : Char} (starts : ∀ text kind, Word text kind → text.head? ≠ some c) (cs : List Char) :
    (Lexeme.first c cs).text = [c] := by
  cases meaning : (Lexeme.first c cs).meaning with
  | ok kind =>
    obtain ⟨more, same⟩ := Lexeme.firstHead c cs
    exact absurd (by rw [← same]; rfl) (starts _ kind (Lexeme.firstWord meaning))
  | error fault =>
    rcases Lexeme.firstFault meaning with ⟨_, same, _⟩ | ⟨_, same, _, _⟩
    · exact same
    · -- the empty string begins with a quote
      obtain ⟨more, head⟩ := Lexeme.firstHead c cs
      cases head.trans same
      exact absurd rfl (starts _ _ (.string (List.not_mem_nil)))

theorem standsFirst {item : Item} {span rest : List Char} (stands : item.Stands span rest) :
    ∃ c cs, span ++ rest = c :: cs ∧ (Lexeme.first c cs).text = span ∧ (Lexeme.first c cs).rest = rest := by
  obtain ⟨c, cs, same, text⟩ : ∃ c cs, span ++ rest = c :: cs ∧ (Lexeme.first c cs).text = span := by
    cases item with
    | token t =>
      obtain ⟨_, w, longest⟩ := stands
      obtain ⟨c, cs, rfl, cut⟩ := Lexeme.firstExact w longest
      exact ⟨c, cs ++ rest, rfl, congrArg Lexeme.text cut⟩
    | error e =>
      obtain ⟨line, fault⟩ := e
      cases fault with
      | unexpectedCharacter c =>
        obtain ⟨rfl, starts⟩ := stands
        exact ⟨c, rest, rfl, unexpectedFirst starts rest⟩
      | unterminatedString =>
        obtain ⟨⟨inner, rfl, unclosed⟩, rfl⟩ := stands
        exact ⟨'"', inner, by simp, congrArg Lexeme.text (Lexeme.stringOpen unclosed)⟩
  refine ⟨c, cs, same, text, ?_⟩
  have whole := Lexeme.firstAppend c cs
  rw [text, ← same] at whole
  exact List.append_cancel_left whole

theorem piecesStep {text : List Char} {pieces : List Piece} (cut : Pieces text pieces) :
    (pieces = [] ∧ layout false text = ⟨text, []⟩) ∨ ∃ p tail c cs, pieces = p :: tail ∧
      layout false text = ⟨p.gap, c :: cs⟩ ∧ (Lexeme.first c cs).text = p.span ∧
      Pieces (Lexeme.first c cs).rest tail := by
  cases cut with
  | done laid =>
    have whole := layoutExact laid solidEnd
    rw [List.append_nil] at whole
    exact .inl ⟨rfl, whole⟩
  | @piece p rest tail laid solid stands next =>
    have whole := layoutExact laid solid
    obtain ⟨c, cs, same, text, rfl⟩ := standsFirst stands
    rw [same] at whole ⊢
    exact .inr ⟨p, tail, c, cs, rfl, whole, text, next⟩

theorem piecesUnique {text : List Char} {pieces others : List Piece} (one : Pieces text pieces)
    (two : Pieces text others) : pieces.map Piece.place = others.map Piece.place := by
  induction pieces generalizing text others with
  | nil =>
    obtain ⟨-, whole⟩ | ⟨p, tail, c, cs, empty, -⟩ := piecesStep one
    · obtain ⟨rfl, -⟩ | ⟨p, tail, c, cs, -, more, -⟩ := piecesStep two
      · rfl
      · cases whole.symm.trans more
    · cases empty
  | cons p pieces ih =>
    obtain ⟨empty, -⟩ | ⟨_, _, c, cs, same, laid, text, next⟩ := piecesStep one
    · cases empty
    · cases same
      obtain ⟨-, whole⟩ | ⟨q, tail, d, ds, rfl, laid', text', next'⟩ := piecesStep two
      · cases whole.symm.trans laid
      · obtain ⟨gap, rest⟩ := Cut.mk.inj (laid.symm.trans laid')
        cases rest
        have place : p.place = q.place := Prod.ext gap (text.symm.trans text')
        rw [List.map_cons, List.map_cons, place, ih next next']

def Item.line : Item → Nat
  | .token t => t.line
  | .error e => e.line

theorem ofLexemeLine (l : Lexeme) (line : Nat) : (Item.ofLexeme l line).line = line := by
  unfold Item.ofLexeme
  cases l.meaning <;> rfl

def Numbered : Nat → List Piece → Prop
  | _, [] => True
  | line, p :: pieces => p.item.line = line + newlines p.text ∧ Numbered (line + newlines p.text) pieces

theorem scanFromPieces (line : Nat) (cs : List Char) : ∃ pieces, Pieces cs pieces ∧ Numbered line pieces ∧
    scanFrom line cs = pieces.map Piece.item ++ [.token ⟨.eof, "", line + newlines cs⟩] := by
  fun_induction scanFrom line cs with
  | case1 line cs gap start all =>
    have laid := layoutLaid cs
    have whole := layoutAppend false cs
    rw [all, List.append_nil] at whole
    rw [all, whole] at laid
    refine ⟨[], .done laid, trivial, ?_⟩
    rw [List.map_nil, List.nil_append, ← whole]
  | case2 line cs gap start c rest found l stop ih =>
    obtain ⟨pieces, cut, numbered, same⟩ := ih
    have laid := layoutLaid cs
    have solid := (layoutSound false cs).1
    have parts : l.text ++ l.rest = c :: rest := Lexeme.firstAppend c rest
    have whole : gap.text ++ (l.text ++ l.rest) = cs := by
      rw [parts, ← found]
      exact layoutAppend false cs
    have lines : stop + newlines l.rest = line + newlines cs := by
      rw [← whole, newlinesAppend, newlinesAppend]
      omega
    have ends : line + newlines (gap.text ++ l.text) = stop := by
      rw [newlinesAppend]
      omega
    rw [found, ← parts] at solid laid
    refine ⟨⟨gap.text, l.text, Item.ofLexeme l stop⟩ :: pieces, ?_, ⟨?_, ?_⟩, ?_⟩
    · rw [← whole]
      exact Pieces.piece (p := ⟨gap.text, l.text, Item.ofLexeme l stop⟩) laid solid (firstStands c rest stop) cut
    · exact (ofLexemeLine l stop).trans ends.symm
    · rw [Piece.text, ends]
      exact numbered
    · rw [same, lines]
      rfl

theorem wordKind {text : List Char} {kind : Kind} (w : Word text kind) :
    (NameShaped text → (kind = .identifier ↔ ∀ k : Keyword, k.text.toList ≠ text)) ∧
      (∀ k : Keyword, k.text.toList = text → kind = .keyword k) ∧
      ∀ contents, kind = .string contents → text = '"' :: contents.toList ++ ['"'] := by
  refine ⟨fun shape => ⟨?_, fun free => wordUnique w (.identifier shape free)⟩, ?_, ?_⟩
  · rintro rfl
    cases w with
    | identifier _ free => exact free
  · rintro k rfl
    exact wordUnique w (.keyword k)
  · rintro contents rfl
    cases w with
    | string closed => rw [String.toList_ofList]

theorem piecesWords {text : List Char} {pieces : List Piece} (cut : Pieces text pieces) {t : Token}
    (member : Item.token t ∈ pieces.map Piece.item) : Word t.lexeme.toList t.kind := by
  induction cut with
  | done => cases member
  | piece laid solid stands tail ih =>
    rcases List.mem_cons.mp member with same | later
    · rw [← same] at stands
      obtain ⟨lexeme, w, -⟩ := stands
      rw [lexeme]
      exact w
    · exact ih later

/- The cutting is the only one there is. In it, every name is a keyword or an identifier as it is spelled, and a string
token has what stands between its quotes. -/
theorem scanIsLongestMatch (source : String) : ∃ pieces line, Pieces source.toList pieces ∧
    scan source = pieces.map Piece.item ++ [.token ⟨.eof, "", line⟩] ∧
    (∀ others, Pieces source.toList others → others.map Piece.place = pieces.map Piece.place) ∧
    ∀ t, Item.token t ∈ pieces.map Piece.item →
      (NameShaped t.lexeme.toList → (t.kind = .identifier ↔ ∀ k : Keyword, k.text ≠ t.lexeme)) ∧
      (∀ k : Keyword, k.text = t.lexeme → t.kind = .keyword k) ∧
      ∀ contents, t.kind = .string contents → t.lexeme.toList = '"' :: contents.toList ++ ['"'] := by
  obtain ⟨pieces, cut, -, same⟩ := scanFromPieces 1 source.toList
  refine ⟨pieces, _, cut, same, fun others other => piecesUnique other cut, fun t member => ?_⟩
  have kind := wordKind (piecesWords cut member)
  simp only [String.toList_inj, ne_eq] at kind ⊢
  exact kind

theorem numberedLine {line : Nat} {earlier later : List Piece} {p : Piece}
    (numbered : Numbered line (earlier ++ p :: later)) : p.item.line = line + newlines (joined earlier ++ p.text) := by
  induction earlier generalizing line with
  | nil => exact numbered.1
  | cons q earlier ih =>
    rw [ih numbered.2, joined, joined, List.flatMap_cons, List.append_assoc, newlinesAppend q.text, Nat.add_assoc]

theorem numberedSorted {line stop : Nat} {pieces : List Piece} (numbered : Numbered line pieces)
    (bound : line + newlines (joined pieces) ≤ stop) :
    List.IsChain (· ≤ ·) (line :: (pieces.map (fun p => p.item.line) ++ [stop])) := by
  induction pieces generalizing line with
  | nil => simpa [joined, newlines] using bound
  | cons p pieces ih =>
    obtain ⟨same, numbered⟩ := numbered
    rw [joined, List.flatMap_cons, newlinesAppend, ← Nat.add_assoc] at bound
    rw [List.map_cons, List.cons_append, List.isChain_cons_cons, same]
    exact ⟨Nat.le_add_right .., ih numbered bound⟩

theorem piecesAt {text : List Char} {earlier later : List Piece} {p : Piece}
    (cut : Pieces text (earlier ++ p :: later)) :
    ∃ rest, text = joined earlier ++ p.text ++ rest ∧ p.item.Stands p.span rest := by
  induction earlier generalizing text with
  | nil =>
    cases cut with
    | @piece _ rest _ laid solid stands tail => exact ⟨rest, by simp [joined, Piece.text], stands⟩
  | cons q earlier ih =>
    cases cut with
    | piece _ _ _ tail =>
      obtain ⟨rest, rfl, stands⟩ := ih tail
      exact ⟨rest, by simp [joined, Piece.text], stands⟩

theorem piecesJoined {text : List Char} {pieces : List Piece} (cut : Pieces text pieces) :
    newlines (joined pieces) ≤ newlines text := by
  induction cut with
  | done => exact Nat.zero_le _
  | @piece p rest pieces laid solid stands tail ih =>
    rw [joined, List.flatMap_cons, Piece.text, ← List.append_assoc, newlinesAppend, newlinesAppend _ rest]
    exact Nat.add_le_add_left ih _

theorem unterminatedLast {item : Item} {span rest : List Char} (stands : item.Stands span rest)
    (unclosed : item.error?.map LexicalError.fault = some .unterminatedString) : rest = [] := by
  cases item with
  | token t => cases unclosed
  | error e =>
    obtain ⟨line, fault⟩ := e
    cases unclosed
    exact stands.2

theorem linesAreExact (source : String) : ∃ pieces, Pieces source.toList pieces ∧
    scan source = pieces.map Piece.item ++ [.token ⟨.eof, "", 1 + source.toList.count '\n'⟩] ∧
    (∀ earlier p later, pieces = earlier ++ p :: later →
      (∃ rest, source.toList = joined earlier ++ p.gap ++ p.span ++ rest) ∧
      p.item.line = 1 + (joined earlier ++ p.gap ++ p.span).count '\n' ∧
      (p.item.error?.map LexicalError.fault = some .unterminatedString →
        p.item.line = 1 + source.toList.count '\n')) ∧
    ((scan source).map Item.line).Pairwise (· ≤ ·) := by
  obtain ⟨pieces, cut, numbered, same⟩ := scanFromPieces 1 source.toList
  refine ⟨pieces, cut, same, ?_, ?_⟩
  · rintro earlier p later rfl
    obtain ⟨rest, whole, stands⟩ := piecesAt cut
    have line := numberedLine numbered
    rw [Piece.text, ← List.append_assoc] at whole line
    refine ⟨⟨rest, whole⟩, line, fun unclosed => ?_⟩
    rw [unterminatedLast stands unclosed, List.append_nil] at whole
    rw [whole, line]
    rfl
  · have sorted := numberedSorted numbered (Nat.add_le_add_left (piecesJoined cut) 1)
    have lines : (scan source).map Item.line = pieces.map (fun p => p.item.line) ++ [1 + newlines source.toList] := by
      rw [scan, same, List.map_append, List.map_map]
      rfl
    rw [lines]
    exact (List.isChain_iff_pairwise.mp sorted).of_cons

end Treewalk
