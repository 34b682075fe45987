import Treewalk.Proofs.Progress.Follows

/-! Recoveries. After a syntax error the walk by positions and the parser skip to the same token, which is the end, comes
after a semicolon or starts a statement; a recovery that does not begin at the end skips a token at least. -/
namespace Treewalk
namespace Walker

variable {s : Walker}

theorem startsKeyword {t : Token} (starts : t.startsStatement = true) : ∃ k ∈ starters, t.kind = .keyword k := by
  unfold Token.startsStatement at starts
  split at starts <;> rename_i kind
  all_goals first | exact ⟨_, by decide, kind⟩ | cases starts

theorem previousFound {s : Walker} {t : Token} (before : s.tokens[s.current - 1]? = some t) :
    Indexed.previous s = .ok t s :=
  tokenFound before

theorem skippingStep {limit : Nat} {s : Walker} (fair : Fair s) {t : Token}
    (before : s.tokens[s.current - 1]? = some t) : Indexed.skipping (limit + 1) s =
      if s.cursor.peek.kind.agrees .eof || t.kind.agrees (.symbol .semicolon) || s.cursor.peek.startsStatement then
        .ok () s
      else Indexed.skipping limit (s.moved (s.current + 1)) := by
  refine (bindFound (atEndFound fair)).trans ?_
  change (if s.cursor.peek.kind.agrees .eof = true then _ else _ : Indexed Unit) s = _
  cases ended : s.cursor.peek.kind.agrees .eof with
  | true => rfl
  | false =>
    refine (bindFound (previousFound before)).trans ?_
    cases t.kind.agrees (.symbol .semicolon) with
    | true => rfl
    | false =>
      refine (bindFound (peekFound fair)).trans ?_
      cases s.cursor.peek.startsStatement with
      | true => rfl
      | false =>
        refine bindFound (advanceFound fair fun kind => ?_)
        rw [kind] at ended
        cases ended

theorem skippingFound (limit : Nat) {s : Walker} (fair : Fair s) (room : s.left ≤ limit) {t : Token}
    (before : s.tokens[s.current - 1]? = some t) :
    ∃ last, Indexed.skipping limit s = .ok () last ∧ Onward s last ∧
      ⟨skipToStatement t s.cursor.rest, s.errors⟩ = last.cursor ∧
      (KindAt s.tokens last.current .eof ∨ KindAt s.tokens (last.current - 1) (.symbol .semicolon) ∨
        ∃ k ∈ starters, KindAt s.tokens last.current (.keyword k)) := by
  induction limit generalizing s t with
  | zero => exact absurd fair.remains (Nat.not_lt_of_le room)
  | succ limit ih =>
    have head := fair.head
    have rest := fair.rest
    rw [skippingStep fair before, rest, skipToStatement]
    split
    · rename_i boundary
      rw [← rest]
      refine ⟨s, rfl, .refl fair, rfl, ?_⟩
      simp only [Bool.or_eq_true] at boundary
      rcases boundary with (ended | semicolon) | starts
      · exact .inl ⟨_, head, Kind.agreesEnd.mp ended⟩
      · exact .inr (.inl ⟨t, before, (Kind.agreesMark rfl).mp semicolon⟩)
      · obtain ⟨k, mem, kind⟩ := startsKeyword starts
        exact .inr (.inr ⟨k, mem, _, head, kind⟩)
    · rename_i inner
      have more : s.cursor.peek.kind ≠ .eof := by
        intro ended
        rw [ended] at inner
        exact inner rfl
      have onward := onwardMoved fair more
      have less := onward.less (Nat.lt_succ_self _)
      obtain ⟨last, ran, later, same, boundary⟩ := ih onward.fair (by omega) head
      exact ⟨last, ran, onward.trans later, same, boundary⟩

def noted (s : Walker) (span : Nat × Nat) : Walker := { s with recoveries := s.recoveries ++ [span] }

theorem Fair.noted {s : Walker} (fair : Fair s) {span : Nat × Nat} (recovered : Recovered s.tokens span) :
    Fair (s.noted span) where
  ends := fair.ends
  inside := fair.inside
  sorted := fair.sorted
  latest := fair.latest
  last := fair.last
  rounds := fair.rounds
  recoveries := fun other mem => by
    rcases List.mem_append.mp mem with earlier | last
    · exact fair.recoveries other earlier
    · cases List.mem_singleton.mp last
      exact recovered

theorem synchronizeEnded {limit : Nat} {s : Walker} (fair : Fair s) (room : s.left ≤ limit)
    (ended : s.cursor.peek.kind = .eof) :
    Indexed.synchronize limit s = .ok () ((s.moved s.current).noted (s.current, s.current)) := by
  have inside : s.current - 1 < s.tokens.length := Nat.lt_of_le_of_lt (Nat.sub_le _ _) fair.within
  obtain ⟨t, before⟩ : ∃ t, s.tokens[s.current - 1]? = some t := ⟨_, List.getElem?_eq_getElem inside⟩
  have atEnd : s.cursor.atEnd = true := Kind.agreesEnd.mpr ended
  have stays : Indexed.advance s = .ok t (s.moved s.current) := by
    refine (bindFound (atEndFound fair)).trans ?_
    rw [atEnd]
    exact previousFound (s := s.moved s.current) before
  have fairStill := fair.moved (Nat.le_refl _) fair.inside
  cases limit with
  | zero => exact absurd fair.remains (Nat.not_lt_of_le room)
  | succ limit =>
    have ran : (Indexed.advance >>= fun _ => Indexed.skipping (limit + 1)) s = .ok () (s.moved s.current) := by
      rw [bindFound stays, skippingStep fairStill before]
      exact if_pos (by rw [show (s.moved s.current).cursor.peek.kind = .eof from ended]; rfl)
    change Indexed.noting _ (Indexed.advance >>= fun _ => Indexed.skipping (limit + 1)) s = _
    rw [Indexed.noting, ran]
    rfl

theorem synchronizeInner {limit : Nat} {s : Walker} (fair : Fair s) (room : s.left ≤ limit)
    (more : s.cursor.peek.kind ≠ .eof) : ∃ last, Indexed.synchronize limit s = .ok () (last.noted (s.current, last.current)) ∧
      Onward s last ∧ s.cursor.synchronize = last.cursor ∧ s.current < last.current ∧
      Recovered s.tokens (s.current, last.current) := by
  have onward := onwardMoved fair more
  have less := onward.less (Nat.lt_succ_self _)
  obtain ⟨last, ran, later, same, boundary⟩ := skippingFound limit onward.fair (by omega) fair.head
  have past : s.current < last.current := later.current
  refine ⟨last, ?_, onward.trans later, ?_, past, ?_, .inl past⟩
  · change Indexed.noting _ (Indexed.advance >>= fun _ => Indexed.skipping limit) s = _
    rw [Indexed.noting, bindFound (advanceFound fair more), ran]
    rfl
  · rw [← same, Cursor.synchronize, fair.rest]
    exact if_neg fun ended => more (Kind.agreesEnd.mp ended)
  · exact boundary.imp_right (Or.imp_left fun semicolon => ⟨past, semicolon⟩)

theorem synchronizeFound {limit : Nat} {s : Walker} (fair : Fair s) (room : s.left ≤ limit) :
    ∃ last, Indexed.synchronize limit s = .ok () last ∧ Onward s last ∧ s.cursor.synchronize = last.cursor ∧
      (s.cursor.peek.kind ≠ .eof → s.current < last.current) := by
  by_cases ended : s.cursor.peek.kind = .eof
  · have recovered : Recovered s.tokens (s.current, s.current) :=
      ⟨.inl ⟨_, fair.head, ended⟩, .inr ⟨rfl, _, fair.head, ended⟩⟩
    have still := fair.moved (Nat.le_refl _) fair.inside
    refine ⟨_, synchronizeEnded fair room ended, ⟨rfl, Nat.le_refl _, still.noted recovered⟩, ?_, absurd ended⟩
    rw [Cursor.synchronize, fair.rest]
    exact if_pos (Kind.agreesEnd.mpr ended)
  · obtain ⟨last, ran, onward, same, past, recovered⟩ := synchronizeInner fair room ended
    rw [← onward.tokens] at recovered
    exact ⟨_, ran, ⟨onward.tokens, onward.current, onward.fair.noted recovered⟩, same, fun _ => past⟩

end Walker
end Treewalk
