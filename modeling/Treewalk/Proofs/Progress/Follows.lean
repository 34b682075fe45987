import Treewalk.Proofs.Parsing
import Treewalk.Proofs.Progress

/-! The walk by positions follows the parser: it has the same results and leaves the same tokens, and it stays fair on
the way. It never goes back or past the first end token, its loops move on in every round, and its recoveries end where
a statement may start. -/
namespace Treewalk

def firstEnd (tokens : List Token) : Nat := tokens.findIdx (fun t => t.kind.agrees .eof)

def starters : List Keyword := [.kwClass, .kwFun, .kwVar, .kwFor, .kwIf, .kwWhile, .kwPrint, .kwReturn]

def KindAt (tokens : List Token) (i : Nat) (k : Kind) : Prop := ∃ t, tokens[i]? = some t ∧ t.kind = k

/- A recovery from one position to another: it ends at an end token, after a semicolon or before a keyword that starts
a statement, and it skips a token unless it began at an end token. -/
def Recovered (tokens : List Token) (span : Nat × Nat) : Prop :=
  (KindAt tokens span.2 .eof ∨ (span.1 < span.2 ∧ KindAt tokens (span.2 - 1) (.symbol .semicolon)) ∨
    ∃ k ∈ starters, KindAt tokens span.2 (.keyword k)) ∧
  (span.1 < span.2 ∨ (span.1 = span.2 ∧ KindAt tokens span.1 .eof))

namespace Walker

def cursor (s : Walker) : Cursor := ⟨s.tokens.drop s.current, s.errors⟩

def left (s : Walker) : Nat := s.tokens.length - s.current

structure Fair (s : Walker) : Prop where
  ends : firstEnd s.tokens < s.tokens.length
  inside : s.current ≤ firstEnd s.tokens
  sorted : s.path.Pairwise (· ≤ ·)
  latest : ∀ i ∈ s.path, i ≤ s.current
  last : s.path.getLast? = some s.current
  rounds : ∀ span ∈ s.rounds, span.1 < firstEnd s.tokens ∧ span.1 < span.2
  recoveries : ∀ span ∈ s.recoveries, Recovered s.tokens span

structure Onward (s after : Walker) : Prop where
  tokens : after.tokens = s.tokens
  current : s.current ≤ after.current
  fair : Fair after

theorem Onward.refl {s : Walker} (fair : Fair s) : Onward s s := ⟨rfl, Nat.le_refl _, fair⟩

theorem Onward.trans {s middle after : Walker} (one : Onward s middle) (two : Onward middle after) : Onward s after :=
  ⟨two.tokens.trans one.tokens, Nat.le_trans one.current two.current, two.fair⟩

structure Ready (k : Nat) (s : Walker) : Prop where
  fair : Fair s
  near : s.left ≤ k

section

variable {s after : Walker} {k : Nat}

theorem Ready.onward (ready : Ready k s) (onward : Onward s after) : Ready k after := by
  refine ⟨onward.fair, Nat.le_trans ?_ ready.near⟩
  rw [left, left, onward.tokens]
  exact Nat.sub_le_sub_left onward.current _

theorem Onward.less (onward : Onward s after) (past : s.current < after.current) : after.left < s.left := by
  have inside := onward.fair.inside
  have ends := onward.fair.ends
  rw [onward.tokens] at inside ends
  rw [left, left, onward.tokens]
  omega

theorem Ready.closer (ready : Ready (k + 1) s) (onward : Onward s after) (past : s.current < after.current) :
    Ready k after :=
  ⟨onward.fair, Nat.le_of_lt_succ (Nat.lt_of_lt_of_le (onward.less past) ready.near)⟩

theorem Fair.within (fair : Fair s) : s.current < s.tokens.length := Nat.lt_of_le_of_lt fair.inside fair.ends

theorem Fair.remains (fair : Fair s) : 0 < s.left := Nat.sub_pos_of_lt fair.within

end

inductive Agrees (s : Walker) (post : α → Walker → Prop) :
    EStateM.Result Stop Walker α → EStateM.Result SyntaxError Cursor α → Prop where
  | ok {a : α} {after : Walker} (onward : Onward s after) (holds : post a after) :
      Agrees s post (.ok a after) (.ok a after.cursor)
  | error {e : SyntaxError} {after : Walker} (onward : Onward s after) :
      Agrees s post (.error (.fault e) after) (.error e after.cursor)

def Follows (s : Walker) (i : Indexed α) (p : Parser α) (post : α → Walker → Prop) : Prop :=
  Agrees s post (i s) (p s.cursor)

def Past (s : Walker) (_ : α) (after : Walker) : Prop := s.current < after.current

def Anywhere (_ : α) (_ : Walker) : Prop := True

section

variable {s middle : Walker} {i : Indexed α} {p : Parser α} {post goal : α → Walker → Prop}

theorem Agrees.since {r : EStateM.Result Stop Walker α} {q : EStateM.Result SyntaxError Cursor α}
    (agrees : Agrees middle post r q) (onward : Onward s middle)
    (weaker : ∀ a after, Onward middle after → post a after → goal a after) : Agrees s goal r q := by
  cases agrees with
  | ok later holds => exact .ok (onward.trans later) (weaker _ _ later holds)
  | error later => exact .error (onward.trans later)

theorem Follows.mono (follows : Follows s i p post) (weaker : ∀ a after, Onward s after → post a after → goal a after)
    (fair : Fair s) : Follows s i p goal :=
  Agrees.since follows (.refl fair) weaker

theorem Follows.anywhere (follows : Follows s i p post) (fair : Fair s) : Follows s i p Anywhere :=
  follows.mono (fun _ _ _ _ => trivial) fair

theorem followsPure {a : α} (fair : Fair s) (holds : post a s) : Follows s (pure a) (pure a) post :=
  .ok (.refl fair) holds

theorem followsFail {line : Nat} {fault : SyntaxFault} (fair : Fair s) :
    Follows s (Indexed.failAt line fault) (Parser.failAt line fault) post :=
  .error (.refl fair)

theorem Follows.bind {f : α → Indexed β} {g : α → Parser β} {goal : β → Walker → Prop} (first : Follows s i p post)
    (second : ∀ a after, Onward s after → post a after → Follows after (f a) (g a) goal) :
    Follows s (i >>= f) (p >>= g) goal := by
  change Agrees s goal (EStateM.bind i f s) (EStateM.bind p g s.cursor)
  unfold Follows at first
  unfold EStateM.bind
  revert first
  generalize i s = r
  generalize p s.cursor = q
  intro first
  cases first with
  | ok onward holds => exact Agrees.since (second _ _ onward holds) onward fun _ _ _ h => h
  | error onward => exact .error onward

end

section Tokens

variable {s : Walker}

theorem Fair.head (fair : Fair s) : s.tokens[s.current]? = some s.cursor.peek := by
  rw [List.getElem?_eq_getElem fair.within, Cursor.peek, cursor, List.drop_eq_getElem_cons fair.within, List.headD_cons]

theorem Fair.ended (fair : Fair s) : s.cursor.peek.kind = .eof ↔ s.current = firstEnd s.tokens := by
  have found := fair.head
  rw [List.getElem?_eq_getElem fair.within, Option.some.injEq] at found
  rw [← found, ← Kind.agreesEnd]
  constructor
  · intro ends
    refine Nat.le_antisymm fair.inside (Nat.le_of_not_lt fun early => ?_)
    rw [List.not_of_lt_findIdx early] at ends
    cases ends
  · intro same
    have first := List.findIdx_getElem (p := fun t : Token => t.kind.agrees .eof) (w := fair.ends)
    rw [getElem_congr_idx same]
    exact first

theorem Fair.rest (fair : Fair s) : s.cursor.rest = s.cursor.peek :: s.tokens.drop (s.current + 1) := by
  have head := fair.head
  rw [List.getElem?_eq_getElem fair.within, Option.some.injEq] at head
  rw [← head]
  exact List.drop_eq_getElem_cons fair.within

theorem Fair.before (fair : Fair s) (more : s.cursor.peek.kind ≠ .eof) : s.current < firstEnd s.tokens :=
  Nat.lt_of_le_of_ne fair.inside (mt fair.ended.mpr more)

theorem bindFound {i : Indexed α} {f : α → Indexed β} {after : Walker} {a : α} (found : i s = .ok a after) :
    (i >>= f) s = f a after := by
  change EStateM.bind i f s = f a after
  rw [EStateM.bind, found]

theorem tokenFound {i : Nat} {t : Token} (found : s.tokens[i]? = some t) : Indexed.token i s = .ok t s := by
  rw [Indexed.token, found]

theorem peekFound (fair : Fair s) : Indexed.peek s = .ok s.cursor.peek s := by
  rw [Indexed.peek, Nat.min_eq_left (Nat.le_sub_one_of_lt fair.within)]
  exact tokenFound fair.head

theorem atEndFound (fair : Fair s) : Indexed.atEnd s = .ok s.cursor.atEnd s := bindFound (peekFound fair)

def moved (s : Walker) (i : Nat) : Walker := { s with current := i, path := s.path ++ [i] }

theorem Fair.moved (fair : Fair s) {i : Nat} (onward : s.current ≤ i) (inside : i ≤ firstEnd s.tokens) :
    Fair (s.moved i) where
  ends := fair.ends
  inside := inside
  sorted := List.pairwise_append.mpr ⟨fair.sorted, List.pairwise_singleton _ _, fun j mem j' last => by
    cases List.mem_singleton.mp last
    exact Nat.le_trans (fair.latest j mem) onward⟩
  latest := fun j mem => by
    rcases List.mem_append.mp mem with earlier | last
    · exact Nat.le_trans (fair.latest j earlier) onward
    · exact Nat.le_of_eq (List.mem_singleton.mp last)
  last := List.getLast?_concat
  rounds := fair.rounds
  recoveries := fair.recoveries

theorem advanceFound (fair : Fair s) (more : s.cursor.peek.kind ≠ .eof) :
    Indexed.advance s = .ok s.cursor.peek (s.moved (s.current + 1)) := by
  have unended : s.cursor.atEnd = false := Bool.eq_false_iff.mpr fun ended => more (Kind.agreesEnd.mp ended)
  refine (bindFound (atEndFound fair)).trans ?_
  rw [unended]
  change Indexed.token (s.current + 1 - 1) (s.moved (s.current + 1)) = _
  rw [Nat.add_sub_cancel]
  exact tokenFound fair.head

theorem onwardMoved (fair : Fair s) (more : s.cursor.peek.kind ≠ .eof) : Onward s (s.moved (s.current + 1)) :=
  ⟨rfl, Nat.le_succ _, fair.moved (Nat.le_succ _) (fair.before more)⟩

theorem skipFound (s : Walker) : Parser.skip s.cursor = .ok () (s.moved (s.current + 1)).cursor := by
  rw [Parser.skip, cursor, List.tail_drop]
  rfl

end Tokens

section Combinators

variable {s : Walker} {post : α → Walker → Prop}

theorem followsPeek {f : Token → Indexed α} {g : Token → Parser α} (fair : Fair s)
    (next : Follows s (f s.cursor.peek) (g s.cursor.peek) post) : Follows s (Indexed.peek >>= f) (Parser.peek >>= g) post := by
  rw [Follows, bindFound (peekFound fair)]
  exact next

theorem followsTake {f : Token → Indexed α} {q : Parser α} (fair : Fair s) (more : s.cursor.peek.kind ≠ .eof)
    (next : ∀ after, Onward s after → s.current < after.current → Follows after (f s.cursor.peek) q post) :
    Follows s (Indexed.advance >>= f) (Parser.skip >>= fun _ => q) post := by
  have onward := onwardMoved fair more
  change Agrees s post _ (EStateM.bind Parser.skip (fun _ => q) s.cursor)
  rw [bindFound (advanceFound fair more), EStateM.bind, skipFound]
  exact Agrees.since (next _ onward (Nat.lt_succ_self _)) onward fun _ _ _ h => h

theorem markUnended {k : Kind} (mark : k.isMark) {t : Token} (same : t.kind.agrees k = true) : t.kind ≠ .eof := by
  rw [(Kind.agreesMark mark).mp same]
  exact Kind.markNotEnd mark

theorem checkFound {k : Kind} (mark : k.isMark) (fair : Fair s) :
    Indexed.check k s = .ok (s.cursor.peek.kind.agrees k) s := by
  refine (bindFound (atEndFound fair)).trans ?_
  cases ended : s.cursor.atEnd with
  | true =>
    have differs : s.cursor.peek.kind.agrees k = false :=
      Bool.eq_false_iff.mpr fun same => markUnended mark same (Kind.agreesEnd.mp ended)
    rw [differs]
    rfl
  | false => exact bindFound (peekFound fair)

theorem followsUnexpected {what : Expected} (fair : Fair s) :
    Follows s (Indexed.unexpected what) (Parser.unexpected what) post :=
  followsPeek fair (followsFail fair)

theorem followsChecked {k : Kind} (mark : k.isMark) {f : Bool → Indexed α} {q : Parser α} (fair : Fair s)
    (next : Follows s (f (s.cursor.peek.kind.agrees k)) q post) : Follows s (Indexed.check k >>= f) q post := by
  rw [Follows, bindFound (checkFound mark fair)]
  exact next

theorem followsSecond {k : Kind} (mark : k.isMark) {f : Bool → Indexed α} {g : Token → Parser α}
    (next : ∀ t : Token, Follows s (f (t.kind.agrees k)) (g t) post) :
    Follows s (Indexed.checkNext k >>= f) (Parser.peekSecond >>= g) post := by
  have same : s.tokens[s.current + 1]?.any (·.kind.agrees k) =
      (s.cursor.rest.tail.headD Token.missingEnd).kind.agrees k := by
    rw [cursor, List.tail_drop, List.headD_eq_head?_getD, List.head?_drop]
    cases s.tokens[s.current + 1]? with
    | some t => rfl
    | none => exact (Bool.eq_false_iff.mpr fun ends => markUnended mark ends rfl).symm
  change Follows s (f (s.tokens[s.current + 1]?.any (·.kind.agrees k))) (g (s.cursor.rest.tail.headD Token.missingEnd)) post
  rw [same]
  exact next _

theorem followsAccept {k : Kind} (mark : k.isMark) (fair : Fair s) :
    Follows s (Indexed.accept k) (Parser.accept k) fun a after => a.isSome = true → s.current < after.current := by
  refine followsChecked mark fair ?_
  change Follows s _ (if s.cursor.peek.kind.agrees k = true then _ else _) _
  split
  · rename_i same
    exact followsTake fair (markUnended mark same) fun after onward past => followsPure onward.fair fun _ => past
  · exact followsPure fair fun none => by cases none

theorem followsExpect {k : Kind} {what : Expected} (mark : k.isMark) (fair : Fair s) :
    Follows s (Indexed.expect k what) (Parser.expect k what) (Past s) := by
  refine followsChecked mark fair ?_
  change Follows s _ (if s.cursor.peek.kind.agrees k = true then _ else _) _
  split
  · rename_i same
    have more := markUnended mark same
    change Agrees s _ (Indexed.advance s) (EStateM.bind Parser.skip _ s.cursor)
    rw [advanceFound fair more, EStateM.bind, skipFound]
    exact .ok (onwardMoved fair more) (Nat.lt_succ_self _)
  · exact followsUnexpected fair

theorem followsIdent {what : Expected} (fair : Fair s) :
    Follows s (Indexed.ident what) (Parser.ident what) (Past s) :=
  (followsExpect rfl fair).bind fun _ _ onward past => followsPure onward.fair past

theorem followsOperator {table : Kind → Option β} (noEnd : table .eof = none) (fair : Fair s) :
    Follows s (Indexed.operator table) (Parser.operator table) fun a after =>
      a.isSome = true → s.current < after.current := by
  refine followsPeek fair ?_
  cases found : table s.cursor.peek.kind with
  | none => exact followsPure fair fun none => by cases none
  | some op =>
    refine followsTake fair (fun kind => ?_) fun after onward past => followsPure onward.fair fun _ => past
    rw [kind, noEnd] at found
    cases found

theorem cursorLength (s : Walker) : s.cursor.rest.length = s.left := List.length_drop

def Along (k : Nat) (i : Indexed α) (p : Parser α) : Prop := ∀ s, Ready k s → Follows s i p Anywhere

def Strictly (k : Nat) (i : Indexed α) (p : Parser α) : Prop := ∀ s, Ready k s → Follows s i p (Past s)

def Steps (k : Nat) (i : Indexed (Option α)) (p : Parser (Option α)) : Prop :=
  ∀ s, Ready k s → Follows s i p fun r after => r.isSome = true → s.current < after.current

theorem Strictly.along {k : Nat} {i : Indexed α} {p : Parser α} (strictly : Strictly k i p) : Along k i p :=
  fun s ready => (strictly s ready).anywhere ready.fair

section Sequences

variable {k : Nat} {i : Indexed α} {p : Parser α} {f : α → Indexed β} {g : α → Parser β}

theorem alongPure (a : α) : Along k (pure a) (pure a) := fun _ ready => followsPure ready.fair trivial

theorem Along.bind (first : Along k i p) (second : ∀ a, Along k (f a) (g a)) : Along k (i >>= f) (p >>= g) :=
  fun s ready => (first s ready).bind fun a after onward _ => second a after (ready.onward onward)

theorem Strictly.bind (first : Strictly k i p) (second : ∀ a, Along k (f a) (g a)) : Strictly k (i >>= f) (p >>= g) :=
  fun s ready => (first s ready).bind fun a after onward past =>
    (second a after (ready.onward onward)).mono (fun _ _ later _ => Nat.lt_of_lt_of_le past later.current) onward.fair

theorem Along.last (first : Along k i p) (second : ∀ a, Strictly k (f a) (g a)) : Strictly k (i >>= f) (p >>= g) :=
  fun s ready => (first s ready).bind fun a after onward _ =>
    (second a after (ready.onward onward)).mono (fun _ _ _ past => Nat.lt_of_le_of_lt onward.current past) onward.fair

theorem alongSome (along : Along k i p) : Along k (some <$> i) (some <$> p) := by
  rw [map_eq_pure_bind, map_eq_pure_bind]
  exact along.bind fun a => alongPure (some a)

theorem alongFail {line : Nat} {fault : SyntaxFault} :
    Along k (Indexed.failAt line fault : Indexed α) (Parser.failAt line fault) :=
  fun _ ready => followsFail ready.fair

theorem Along.fewer (along : Along (k + 1) i p) : Along k i p :=
  fun s ready => along s ⟨ready.fair, Nat.le_succ_of_le ready.near⟩

theorem alongAccepted {kind : Kind} (mark : kind.isMark) : Along k (Indexed.accept kind) (Parser.accept kind) :=
  fun _ ready => (followsAccept mark ready.fair).anywhere ready.fair

theorem strictlyExpect {kind : Kind} {what : Expected} (mark : kind.isMark) :
    Strictly k (Indexed.expect kind what) (Parser.expect kind what) := fun _ ready => followsExpect mark ready.fair

theorem strictlyIdent {what : Expected} : Strictly k (Indexed.ident what) (Parser.ident what) :=
  fun _ ready => followsIdent ready.fair

theorem alongAccept {kind : Kind} (mark : kind.isMark) {f : Option Token → Indexed β} {g : Option Token → Parser β}
    (found : ∀ t, Along k (f (some t)) (g (some t))) (missing : Along (k + 1) (f none) (g none)) :
    Along (k + 1) (Indexed.accept kind >>= f) (Parser.accept kind >>= g) := by
  intro s ready
  refine (followsAccept mark ready.fair).bind fun t after onward past => ?_
  cases t with
  | none => exact missing after (ready.onward onward)
  | some t => exact found t after (ready.closer onward (past rfl))

theorem alongOperator {table : Kind → Option α} (noEnd : table .eof = none) {f : Option (α × Nat) → Indexed β}
    {g : Option (α × Nat) → Parser β} (found : ∀ op, Along k (f (some op)) (g (some op)))
    (missing : Along (k + 1) (f none) (g none)) :
    Along (k + 1) (Indexed.operator table >>= f) (Parser.operator table >>= g) := by
  intro s ready
  refine (followsOperator noEnd ready.fair).bind fun op after onward past => ?_
  cases op with
  | none => exact missing after (ready.onward onward)
  | some op => exact found op after (ready.closer onward (past rfl))

theorem followsTaken {s : Walker} {f : Token → Indexed α} {q : Parser α} {post : α → Walker → Prop}
    (ready : Ready (k + 1) s) (more : s.cursor.peek.kind ≠ .eof)
    (holds : ∀ a after, s.current < after.current → post a after) (next : Along k (f s.cursor.peek) q) :
    Follows s (Indexed.advance >>= f) (Parser.skip >>= fun _ => q) post :=
  followsTake ready.fair more fun after onward past => (next after (ready.closer onward past)).mono
    (fun _ _ later _ => holds _ _ (Nat.lt_of_lt_of_le past later.current)) onward.fair

end Sequences

/- Steps that add something consume a token, so a loop of them ends before the tokens do. -/
theorem followsGrow {k : Nat} {step : β → Indexed (Option β)} {step' : β → Parser (Option β)}
    (steps : ∀ b, Steps k (step b) (step' b))
    {limit : Nat} {bound : List Token} {s : Walker} (ready : Ready k s) (room : s.left ≤ limit)
    (tokens : s.left ≤ bound.length) (b : β) :
    Follows s (Indexed.grow step limit b) (Parser.grow step' bound b) Anywhere := by
  induction limit generalizing bound s b with
  | zero => exact absurd ready.fair.remains (Nat.not_lt_of_le room)
  | succ limit ih =>
    cases bound with
    | nil => exact absurd ready.fair.remains (Nat.not_lt_of_le tokens)
    | cons t bound =>
      refine (steps b s ready).bind fun r after onward past => ?_
      cases r with
      | none => exact followsPure onward.fair trivial
      | some larger =>
        have less := onward.less (past rfl)
        rw [List.length_cons] at tokens
        exact ih (ready.onward onward) (by omega) (by omega) larger

theorem alongGrowing {k limit : Nat} {step : β → Indexed (Option β)} {step' : β → Parser (Option β)}
    (steps : ∀ b, Steps k (step b) (step' b)) (room : k ≤ limit) (b : β) :
    Along k (Indexed.grow step limit b) (Parser.growing step' b) :=
  fun s ready => followsGrow steps ready (Nat.le_trans ready.near room) (Nat.le_of_eq (cursorLength s).symm) b

theorem alongLeftAssoc {k limit : Nat} {table : Kind → Option β} (noEnd : table .eof = none)
    (build : Expr → β → Expr → Nat → Expr) {operand : Indexed Expr} {operand' : Parser Expr}
    (operands : Along k operand operand') (room : k ≤ limit) :
    Along k (Indexed.leftAssoc limit table build operand) (Parser.leftAssoc table build operand') := by
  have steps (left : Expr) :
      Steps k (Indexed.operation table build operand left) (Parser.operation table build operand' left) := by
    intro s ready
    refine (followsOperator noEnd ready.fair).bind fun r after onward past => ?_
    cases r with
    | none => exact followsPure onward.fair fun none => by cases none
    | some found =>
      refine (operands after (ready.onward onward)).bind fun right last later _ => followsPure later.fair fun _ => ?_
      exact Nat.lt_of_lt_of_le (past rfl) later.current
  intro s ready
  exact (operands s ready).bind fun first after onward _ => alongGrowing steps room first after (ready.onward onward)

theorem followsNoting {note : Nat × Nat → Walker → Walker} {i : Indexed α} {p : Parser α} {before : α → Walker → Prop}
    (follows : Follows s i p before) (same : ∀ span after, (note span after).cursor = after.cursor)
    (noted : ∀ a after, Onward s after → before a after →
      Onward s (note (s.current, after.current) after) ∧ post a (note (s.current, after.current) after)) :
    Follows s (Indexed.noting note i) p post := by
  unfold Follows at follows
  unfold Follows Indexed.noting
  revert follows
  generalize i s = r
  generalize p s.cursor = q
  intro follows
  cases follows with
  | @ok a after onward holds =>
    obtain ⟨onward', holds'⟩ := noted a after onward holds
    rw [← same (s.current, after.current) after]
    exact .ok onward' holds'
  | error onward => exact .error onward

theorem followsRound {i : Indexed α} {p : Parser α} (follows : Follows s i p (Past s))
    (before : s.current < firstEnd s.tokens) : Follows s (Indexed.round i) p (Past s) := by
  refine followsNoting follows (fun _ _ => rfl) fun a after onward past => ⟨⟨onward.tokens, onward.current, ?_⟩, past⟩
  have fair := onward.fair
  refine ⟨fair.ends, fair.inside, fair.sorted, fair.latest, fair.last, fun span mem => ?_, fair.recoveries⟩
  rcases List.mem_append.mp mem with earlier | last
  · exact fair.rounds span earlier
  · cases List.mem_singleton.mp last
    exact ⟨by rw [onward.tokens]; exact before, past⟩

def Tests (done : Indexed Bool) (done' : Parser Bool) : Prop := ∀ s, Fair s →
  ∃ b, done s = .ok b s ∧ done' s.cursor = .ok b s.cursor ∧ (b = false → s.cursor.peek.kind ≠ .eof)

theorem testsAtEnd : Tests Indexed.atEnd Parser.atEnd := by
  intro s fair
  refine ⟨s.cursor.atEnd, atEndFound fair, rfl, fun unended ended => ?_⟩
  rw [Cursor.atEnd, ended] at unended
  cases unended

theorem testsAtBlockEnd : Tests Indexed.atBlockEnd Parser.atBlockEnd := by
  intro s fair
  refine ⟨s.cursor.peek.kind.agrees (.symbol .rightBrace) || s.cursor.atEnd, ?_, rfl, fun neither ended => ?_⟩
  · exact (bindFound (checkFound rfl fair)).trans (bindFound (atEndFound fair))
  · rw [Cursor.atEnd, ended] at neither
    cases neither

theorem followsCollect {k : Nat} {done : Indexed Bool} {done' : Parser Bool} {item : Indexed (Option α)}
    {item' : Parser (Option α)} (tests : Tests done done')
    (items : ∀ s, Ready k s → s.cursor.peek.kind ≠ .eof → Follows s item item' (Past s))
    {limit : Nat} {bound : List Token} {s : Walker} (ready : Ready k s) (room : s.left ≤ limit)
    (tokens : s.left ≤ bound.length) :
    Follows s (Indexed.collect done item limit) (Parser.collect done' item' bound) Anywhere := by
  induction limit generalizing bound s with
  | zero => exact absurd ready.fair.remains (Nat.not_lt_of_le room)
  | succ limit ih =>
    cases bound with
    | nil => exact absurd ready.fair.remains (Nat.not_lt_of_le tokens)
    | cons t bound =>
      obtain ⟨b, found, found', more⟩ := tests s ready.fair
      change Agrees s _ ((done >>= _) s) (EStateM.bind done' _ s.cursor)
      rw [bindFound found, EStateM.bind, found']
      cases b with
      | true => exact .ok (.refl ready.fair) trivial
      | false =>
        have before := ready.fair.before (more rfl)
        refine Follows.bind (followsRound (items s ready (more rfl)) before) fun x after onward past => ?_
        have less := onward.less past
        rw [List.length_cons] at tokens
        refine (ih (ready.onward onward) (by omega) (by omega)).bind fun xs last later _ => ?_
        exact followsPure later.fair trivial

theorem alongCollecting {k limit : Nat} {done : Indexed Bool} {done' : Parser Bool} {item : Indexed (Option α)}
    {item' : Parser (Option α)} (tests : Tests done done')
    (items : ∀ s, Ready k s → s.cursor.peek.kind ≠ .eof → Follows s item item' (Past s)) (room : k ≤ limit) :
    Along k (Indexed.collect done item limit) (Parser.collecting done' item') := fun s ready =>
  followsCollect tests items ready (Nat.le_trans ready.near room) (Nat.le_of_eq (cursorLength s).symm)

theorem alongCommaList {k : Nat} {item : Indexed α} {item' : Parser α} {full : SyntaxFault} (items : Along k item item')
    (room : Nat) : Along k (Indexed.commaList item full room) (Parser.commaList item' full room) := by
  induction room with
  | zero => exact fun s ready => followsPeek ready.fair (followsFail ready.fair)
  | succ room ih =>
    intro s ready
    refine (items s ready).bind fun x after onward _ => (followsAccept rfl onward.fair).bind fun comma last later _ => ?_
    cases comma with
    | none => exact followsPure later.fair trivial
    | some _ =>
      refine (ih last ((ready.onward onward).onward later)).bind fun xs _ final _ => followsPure final.fair trivial

theorem followsCheck {k : Kind} (mark : k.isMark) {f : Bool → Indexed α} {g : Bool → Parser α} (fair : Fair s)
    (next : ∀ b, Follows s (f b) (g b) post) : Follows s (Indexed.check k >>= f) (Parser.check k >>= g) post :=
  followsChecked mark fair (next (s.cursor.peek.kind.agrees k))

theorem alongCheck {k : Nat} {kind : Kind} (mark : kind.isMark) {f : Bool → Indexed α} {g : Bool → Parser α}
    (next : ∀ b, Along k (f b) (g b)) : Along k (Indexed.check kind >>= f) (Parser.check kind >>= g) :=
  fun s ready => followsCheck mark ready.fair fun b => next b s ready

theorem strictlyBracketed {k : Nat} {item : Indexed α} {item' : Parser α} {full : SyntaxFault} {close : Expected}
    (items : Along k item item') : Strictly k (Indexed.bracketed item full close) (Parser.bracketed item' full close) := by
  intro s ready
  refine followsCheck rfl ready.fair fun closed => ?_
  cases closed with
  | true => exact (followsExpect rfl ready.fair).bind fun last after onward past => followsPure onward.fair past
  | false =>
    refine (alongCommaList items maxArguments s ready).bind fun xs after onward _ => ?_
    refine (followsExpect rfl onward.fair).bind fun last final later past => followsPure later.fair ?_
    exact Nat.lt_of_le_of_lt onward.current past

theorem strictlyParameters {k : Nat} : Strictly k Indexed.parameters Parser.parameters := by
  intro s ready
  have names : Along k (Indexed.ident .parameterName) (Parser.ident .parameterName) :=
    fun s ready => (followsIdent ready.fair).anywhere ready.fair
  exact (strictlyBracketed names s ready).bind fun r after onward past => followsPure onward.fair past

end Combinators
end Walker
end Treewalk
