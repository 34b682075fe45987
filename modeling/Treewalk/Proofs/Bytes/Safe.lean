import Treewalk.Proofs.Bytes.Lexemes

/-! The scanner on bytes finds the items of the text and fails no check on the way: whenever it reads a byte there is
one, and whenever it cuts the text both ends are where a character starts. -/
namespace Treewalk

def Item.IsEnd (item : Item) : Prop := ∃ t : Token, item = .token t ∧ t.kind = .eof

namespace Scanner

section

variable {s : Scanner} {before piece later : List Char}

def Standing (s : Scanner) (later : List Char) : Prop :=
  ∃ before, s.text.toList = before ++ later ∧ s.curr = (bytes before).length

theorem Holds.standing (held : Holds s before piece later) : Standing s later := by
  refine ⟨before ++ piece, held.text, ?_⟩
  rw [held.curr, held.start, bytesAppend, List.length_append]

theorem Standing.left (standing : Standing s later) : s.curr + (bytes later).length = s.size := by
  obtain ⟨before, text, curr⟩ := standing
  rw [sizeExact, raw, text, curr, bytesAppend, List.length_append]

theorem Standing.inside {c : Char} {cs : List Char} (standing : Standing s (c :: cs)) : s.curr < s.size := by
  obtain ⟨lead, tail, encoded, -⟩ := encodedFirst c
  rw [← standing.left, bytesCons, encoded]
  simp

theorem nextEnd (standing : Standing s []) :
    s.next = .ok (some (.token ⟨.eof, "", s.line⟩), { s with curr := s.size + 1 }) := by
  have all : s.curr = s.size := standing.left
  rw [next.eq_def, if_pos (Nat.le_of_eq all), if_pos all, all]

theorem nextToken {c : Char} {cs : List Char} (standing : Standing s (c :: cs)) {found : Scanned} {after : Scanner}
    (ran : { s with start := s.curr }.scanToken = .ok (found, after)) :
    s.next = match found with
      | .layout => after.next
      | .kind k => do
        let text ← after.lexeme
        return (some (.token ⟨k, text, after.line⟩), after)
      | .fault f => .ok (some (.error ⟨after.line, f⟩), after) := by
  have inside := standing.inside
  rw [next.eq_def, if_pos (Nat.le_of_lt inside), if_neg (Nat.ne_of_lt inside)]
  split <;> rename_i other <;> cases ran.symm.trans other <;> rfl

theorem nextExact (standing : Standing s later) : ∃ item after, s.next = .ok (some item, after) ∧
    ((item.IsEnd ∧ scanFrom s.line later = [item] ∧ after.curr = s.size + 1) ∨
      (¬ item.IsEnd ∧ ∃ rest, Standing after rest ∧ scanFrom s.line later = item :: scanFrom after.line rest)) := by
  -- layout is passed over by further calls, each with less text ahead
  induction length : later.length using Nat.strong_induction_on generalizing s later with
  | _ n ih =>
    cases later with
    | nil =>
      have empty : layout false [] = ⟨[], []⟩ := layoutSolid solidEnd
      refine ⟨_, _, nextEnd standing, .inl ⟨⟨_, rfl, rfl⟩, ?_, rfl⟩⟩
      rw [scanFromEnd s.line (by rw [empty]), empty]
      rfl
    | cons c cs =>
      obtain ⟨before, text, curr⟩ := id standing
      have held : Holds { s with start := s.curr } before [] (c :: cs) := ⟨by simpa using text, curr, rfl⟩
      rcases scanTokenExact held with ⟨gap, rest, ⟨after, ran, last, line⟩, shorter, skips⟩ |
        ⟨solid, after, ran, last, line⟩
      · rw [List.length_cons] at length
        obtain ⟨item, stop, call, found⟩ := ih rest.length (by omega) last.standing rfl
        refine ⟨item, stop, (nextToken standing ran).trans call, ?_⟩
        have same : scanFrom s.line (c :: cs) = scanFrom after.line rest := by rw [skips s.line, line]
        have size : after.size = s.size := congrArg String.utf8ByteSize (scanTokenOnward ran).1
        rw [same, ← size]
        exact found
      · have whole : (layout false (c :: cs)).rest = c :: cs := by rw [solid]
        have first := scanFromFirst s.line whole
        rw [solid] at first
        change _ = Item.ofLexeme _ (s.line + newlines (Lexeme.first c cs).text) ::
          scanFrom (s.line + newlines (Lexeme.first c cs).text) _ at first
        rw [← line] at first
        cases meaning : (Lexeme.first c cs).meaning with
        | ok k =>
          rw [meaning] at ran
          have call := nextToken standing ran
          change _ = after.lexeme >>= _ at call
          rw [last.lexeme] at call
          rw [Item.ofLexeme, meaning] at first
          refine ⟨_, after, call, .inr ⟨?_, _, last.standing, first⟩⟩
          rintro ⟨t, same, ends⟩
          cases same
          exact (Lexeme.firstKind meaning).1 ends
        | error f =>
          rw [meaning] at ran
          rw [Item.ofLexeme, meaning] at first
          refine ⟨_, after, nextToken standing ran, .inr ⟨?_, _, last.standing, first⟩⟩
          rintro ⟨t, same, -⟩
          cases same

end

theorem nextDone {s : Scanner} (done : s.curr = s.size + 1) : s.next = .ok (none, s) := by
  rw [next.eq_def, if_neg (by omega)]

theorem collectNone {s after : Scanner} (ran : s.next = .ok (none, after)) : s.collect = .ok ([], after) := by
  rw [collect.eq_def]
  split <;> rename_i other <;> cases ran.symm.trans other
  rfl

theorem collectSome {s after stop : Scanner} {item : Item} {items : List Item}
    (ran : s.next = .ok (some item, after)) (others : after.collect = .ok (items, stop)) :
    s.collect = .ok (item :: items, stop) := by
  rw [collect.eq_def]
  split <;> rename_i other <;> cases ran.symm.trans other
  rw [others]
  rfl

theorem collectExact {s : Scanner} {later : List Char} (standing : Standing s later) :
    ∃ items last stop, s.collect = .ok (items ++ [last], stop) ∧ scanFrom s.line later = items ++ [last] ∧
      last.IsEnd ∧ (∀ item ∈ items, ¬ item.IsEnd) ∧ items.length + s.curr ≤ s.size ∧ stop.curr = s.size + 1 ∧
      stop.next = .ok (none, stop) := by
  induction left : scanFrom s.line later generalizing s later with
  | nil =>
    obtain ⟨item, after, -, ⟨-, found, -⟩ | ⟨-, rest, -, found⟩⟩ := nextExact standing <;> cases left.symm.trans found
  | cons first _ ih =>
    obtain ⟨item, after, call, ⟨ends, found, done⟩ | ⟨inner, rest, standingAfter, found⟩⟩ := nextExact standing
    all_goals
      obtain ⟨text, moved, inside⟩ := nextOnward call
      have size : after.size = s.size := congrArg String.utf8ByteSize text
      cases left.symm.trans found
    · rw [← size] at done
      have last := nextDone done
      refine ⟨[], first, after, collectSome call (collectNone last), rfl, ends, List.forall_mem_nil _, ?_, ?_, last⟩
      · rwa [List.length_nil, Nat.zero_add]
      · rw [done, size]
    · obtain ⟨items, last, stop, collected, same, ends, inners, count, done, none⟩ := ih standingAfter rfl
      refine ⟨first :: items, last, stop, collectSome call collected, by rw [same]; rfl, ends,
        List.forall_mem_cons.mpr ⟨inner, inners⟩, ?_, by rw [done, size], none⟩
      rw [List.length_cons]
      omega

inductive Reached (source : String) : Scanner → Prop where
  | start : Reached source (.ofText source)
  | call {s after : Scanner} {item? : Option Item} (before : Reached source s) (ran : s.next = .ok (item?, after)) :
      Reached source after

theorem startStanding (source : String) : Standing (.ofText source) source.toList := ⟨[], rfl, rfl⟩

theorem reachedStanding {source : String} {s : Scanner} (reached : Reached source s) :
    s.text = source ∧ ((∃ later, Standing s later) ∨ s.curr = s.size + 1) := by
  induction reached with
  | start => exact ⟨rfl, .inl ⟨_, startStanding source⟩⟩
  | call before ran ih =>
    obtain ⟨text, ⟨later, standing⟩ | done⟩ := ih
    · obtain ⟨item, after, call, found⟩ := nextExact standing
      cases call.symm.trans ran
      have same := (nextOnward call).1
      refine ⟨same.trans text, ?_⟩
      rcases found with ⟨-, -, done⟩ | ⟨-, rest, standingAfter, -⟩
      · right
        rw [done, size, size, same]
      · exact .inl ⟨rest, standingAfter⟩
    · cases (nextDone done).symm.trans ran
      exact ⟨text, .inr done⟩

/- No byte is read and no slice is cut out of place, whatever the text: every call returns. A call before the end moves
on and gives an item, a call after it gives none; the items are those of the text, at most one for each byte and the
end as the only and last one after them. -/
theorem scannerIsSafe (source : String) :
    (∀ s, Reached source s → s.text = source ∧ s.curr ≤ source.utf8ByteSize + 1 ∧
      ∃ item? after, s.next = .ok (item?, after) ∧
        (s.curr ≤ source.utf8ByteSize → item?.isSome ∧ s.curr < after.curr) ∧
        (s.curr = source.utf8ByteSize + 1 → item? = none ∧ after = s)) ∧
    ∃ items last stop, (ofText source).collect = .ok (items ++ [last], stop) ∧ items ++ [last] = scan source ∧
      items.length ≤ source.utf8ByteSize ∧ last.IsEnd ∧ (∀ item ∈ items, ¬ item.IsEnd) ∧
      stop.curr = source.utf8ByteSize + 1 ∧ stop.next = .ok (none, stop) := by
  constructor
  · intro s reached
    obtain ⟨rfl, ⟨later, standing⟩ | done⟩ := reachedStanding reached
    · have inside : s.curr ≤ s.size := Nat.le.intro standing.left
      obtain ⟨item, after, call, -⟩ := nextExact standing
      refine ⟨rfl, Nat.le_succ_of_le inside, some item, after, call, fun _ => ⟨rfl, (nextOnward call).2.1⟩, fun past => ?_⟩
      exact absurd (past ▸ inside) (Nat.not_succ_le_self _)
    · refine ⟨rfl, Nat.le_of_eq done, none, s, nextDone done, fun inside => ?_, fun _ => ⟨rfl, rfl⟩⟩
      exact absurd (done ▸ inside) (Nat.not_succ_le_self _)
  · obtain ⟨items, last, stop, collected, same, ends, inners, count, done, none⟩ := collectExact (startStanding source)
    exact ⟨items, last, stop, collected, same.symm, count, ends, inners, done, none⟩

end Scanner
end Treewalk
