import Treewalk.Proofs.Grammar

/-! What a parser may do to its cursor. Errors are only ever added; a parser that ends without adding one has
consumed tokens in order, none of them the end token, and its result and the rest are related as its phrase
demands. The lemmas here carry this through the combinators, once for every combinator. -/
namespace Treewalk

def Kind.isMark : Kind → Bool
  | .symbol _ | .keyword _ | .identifier => true
  | _ => false

theorem Kind.agreesMark {k k' : Kind} (mark : k.isMark) : k'.agrees k = true ↔ k' = k := by
  cases k <;> cases k' <;> simp_all [isMark,agrees]

theorem Kind.agreesEnd {k : Kind} : k.agrees .eof = true ↔ k = .eof := by
  cases k <;> simp [agrees]

theorem Kind.markNotEnd {k : Kind} (mark : k.isMark) : k ≠ .eof := by
  rintro rfl
  simp [isMark] at mark

namespace Parser
open Grammar

def Consumed (before after : List Token) : Prop :=
  ∃ ts, before = ts ++ after ∧ ∀ t ∈ ts, t.kind ≠ .eof

theorem Consumed.refl (ts : List Token) : Consumed ts ts := ⟨[],rfl,by simp⟩

theorem Consumed.trans {a b c : List Token} (first : Consumed a b) (second : Consumed b c) : Consumed a c := by
  obtain ⟨ts,rfl,clean⟩ := first
  obtain ⟨us,rfl,clean'⟩ := second
  refine ⟨ts ++ us,by simp,?_⟩
  intro t member
  rcases List.mem_append.mp member with h | h
  · exact clean t h
  · exact clean' t h

theorem Consumed.one {t : Token} (kind : t.kind ≠ .eof) (rest : List Token) : Consumed (t :: rest) rest :=
  ⟨[t],rfl,by simpa using kind⟩

def SoundAt (p : Parser α) (c : Cursor) (post : α → List Token → Prop) : Prop :=
  match p c with
  | .ok a c' => c.errors <+: c'.errors ∧
      (c'.errors = c.errors → Consumed c.rest c'.rest ∧ post a c'.rest)
  | .error _ c' => c.errors <+: c'.errors

def Sound (p : Parser α) (post : List Token → α → List Token → Prop) : Prop :=
  ∀ c, SoundAt p c (post c.rest)

def Span (phrase : List Token → α → Prop) (before : List Token) (a : α) (after : List Token) : Prop :=
  ∃ ts, before = ts ++ after ∧ phrase ts a

theorem SoundAt.mono {p : Parser α} {c : Cursor} {post post' : α → List Token → Prop}
    (sound : SoundAt p c post) (weaker : ∀ a after, post a after → post' a after) : SoundAt p c post' := by
  unfold SoundAt at *
  cases h : p c with
  | ok a c' =>
    simp only [h] at sound ⊢
    refine ⟨sound.1,fun same => ?_⟩
    obtain ⟨consumed,holds⟩ := sound.2 same
    exact ⟨consumed,weaker a c'.rest holds⟩
  | error e c' => simpa only [h] using sound

theorem Sound.mono {p : Parser α} {post post' : List Token → α → List Token → Prop}
    (sound : Sound p post) (weaker : ∀ before a after, post before a after → post' before a after) :
    Sound p post' := fun c => (sound c).mono (weaker c.rest)

theorem Sound.and {p : Parser α} {post post' : List Token → α → List Token → Prop}
    (sound : Sound p post) (sound' : Sound p post') :
    Sound p fun before a after => post before a after ∧ post' before a after := by
  intro c
  have first := sound c
  have second := sound' c
  unfold SoundAt at *
  cases h : p c with
  | ok a c' =>
    simp only [h] at first second ⊢
    exact ⟨first.1,fun same => ⟨(first.2 same).1,(first.2 same).2,(second.2 same).2⟩⟩
  | error e c' => simpa only [h] using first

theorem soundPure {c : Cursor} {post : α → List Token → Prop} {a : α} (holds : post a c.rest) :
    SoundAt (pure a) c post := ⟨List.prefix_rfl,fun _ => ⟨.refl _,holds⟩⟩

theorem bindOk {p : Parser α} {f : α → Parser β} {c c' : Cursor} {a : α} (ran : p c = .ok a c') :
    (p >>= f) c = f a c' := by
  change EStateM.bind p f c = f a c'
  simp only [EStateM.bind,ran]

theorem bindError {p : Parser α} {f : α → Parser β} {c c' : Cursor} {e : SyntaxError}
    (ran : p c = .error e c') : (p >>= f) c = .error e c' := by
  change EStateM.bind p f c = .error e c'
  simp only [EStateM.bind,ran]

/- The second parser may start where errors were added, so what is known of the first is a premise of its
result and not of its run. -/
theorem SoundAt.bind {p : Parser α} {f : α → Parser β} {c : Cursor} {post : α → List Token → Prop}
    {goal : β → List Token → Prop} (first : SoundAt p c post)
    (second : ∀ a c', SoundAt (f a) c' (fun b after => post a c'.rest → goal b after)) :
    SoundAt (p >>= f) c goal := by
  unfold SoundAt at first
  cases h : p c with
  | error e c' =>
    simp only [h] at first
    unfold SoundAt
    simpa only [bindError h] using first
  | ok a c' =>
    simp only [h] at first
    have next := second a c'
    unfold SoundAt at next ⊢
    rw [bindOk h]
    cases h' : f a c' with
    | error e c'' =>
      simp only [h'] at next ⊢
      exact first.1.trans next
    | ok b c'' =>
      simp only [h'] at next ⊢
      refine ⟨first.1.trans next.1,fun same => ?_⟩
      have unchanged : c'.errors = c.errors :=
        ((same ▸ next.1).eq_of_length_le (first.1.length_le)).symm ▸ rfl
      obtain ⟨consumed,holds⟩ := first.2 unchanged
      obtain ⟨consumed',holds'⟩ := next.2 (same.trans unchanged.symm)
      exact ⟨consumed.trans consumed',holds' holds⟩

theorem Sound.some {p : Parser α} {post : List Token → α → List Token → Prop} (sound : Sound p post) :
    Sound (some <$> p) fun before r after => ∃ a, r = some a ∧ post before a after := by
  intro c
  rw [map_eq_pure_bind]
  exact (sound c).bind fun a c' => soundPure fun holds => ⟨a,rfl,holds⟩

theorem soundPeek {f : Token → Parser α} {c : Cursor} {goal : α → List Token → Prop}
    (next : SoundAt (f c.peek) c goal) : SoundAt (peek >>= f) c goal := next

theorem soundPeekSecond {f : Token → Parser α} {c : Cursor} {goal : α → List Token → Prop}
    (next : SoundAt (f (c.rest.tail.headD Token.missingEnd)) c goal) : SoundAt (peekSecond >>= f) c goal := next

theorem soundCheck {k : Kind} {f : Bool → Parser α} {c : Cursor} {goal : α → List Token → Prop}
    (next : SoundAt (f (c.peek.kind.agrees k)) c goal) : SoundAt (check k >>= f) c goal := next

theorem soundSkip {p : Parser α} {c : Cursor} {t : Token} {rest : List Token} {goal : α → List Token → Prop}
    (here : c.rest = t :: rest) (kind : t.kind ≠ .eof) (next : ∀ c', c'.rest = rest → SoundAt p c' goal) :
    SoundAt (skip >>= fun _ => p) c goal := by
  have skipped : skip c = .ok () ⟨rest,c.errors⟩ := by simp [skip,here]
  have later := next ⟨rest,c.errors⟩ rfl
  unfold SoundAt at later ⊢
  rw [bindOk skipped]
  cases h : p ⟨rest,c.errors⟩ with
  | error e c' => simpa only [h] using later
  | ok a c' =>
    simp only [h] at later ⊢
    refine ⟨later.1,fun same => ?_⟩
    obtain ⟨consumed,holds⟩ := later.2 same
    exact ⟨here ▸ (Consumed.one kind rest).trans consumed,holds⟩

theorem soundFail {c : Cursor} {line : Nat} {fault : SyntaxFault} {goal : α → List Token → Prop} :
    SoundAt (failAt line fault) c goal := List.prefix_rfl

theorem soundUnexpected {c : Cursor} {what : Expected} {goal : α → List Token → Prop} :
    SoundAt (unexpected what) c goal := List.prefix_rfl

theorem peekNotEnd {c : Cursor} (kind : c.peek.kind ≠ .eof) : ∃ rest, c.rest = c.peek :: rest := by
  cases here : c.rest with
  | nil => simp [Cursor.peek,here,Token.missingEnd] at kind
  | cons t rest => exact ⟨rest,by simp [Cursor.peek,here]⟩

theorem soundTake {p : Parser α} {c : Cursor} {goal : α → List Token → Prop} (kind : c.peek.kind ≠ .eof)
    (next : ∀ c', c.rest = c.peek :: c'.rest → SoundAt p c' goal) : SoundAt (skip >>= fun _ => p) c goal := by
  obtain ⟨rest,here⟩ := peekNotEnd kind
  exact soundSkip here kind fun c' there => next c' (there ▸ here)

def Accepted (k : Kind) (before : List Token) : Option Token → List Token → Prop
  | some t,after => before = t :: after ∧ t.kind = k
  | none,after => after = before ∧ (before.headD Token.missingEnd).kind ≠ k

theorem soundAccept {k : Kind} (mark : k.isMark) : Sound (accept k) (Accepted k) := by
  intro c
  refine soundPeek ?_
  split
  · rename_i agrees
    have kind := (Kind.agreesMark mark).mp agrees
    exact soundTake (kind ▸ Kind.markNotEnd mark) fun c' here => soundPure ⟨here,kind⟩
  · rename_i differs
    exact soundPure ⟨rfl,fun same => differs ((Kind.agreesMark mark).mpr same)⟩

def Expects (k : Kind) (before : List Token) (t : Token) (after : List Token) : Prop :=
  before = t :: after ∧ t.kind = k

theorem soundExpect {k : Kind} {what : Expected} (mark : k.isMark) : Sound (expect k what) (Expects k) := by
  intro c
  refine soundPeek ?_
  split
  · rename_i agrees
    have kind := (Kind.agreesMark mark).mp agrees
    exact soundTake (kind ▸ Kind.markNotEnd mark) fun c' here => soundPure ⟨here,kind⟩
  · exact soundUnexpected

theorem soundIdent {what : Expected} : Sound (ident what) (Span Name) := by
  intro c
  refine (soundExpect rfl c).bind fun t c' => soundPure ?_
  rintro ⟨here,kind⟩
  exact ⟨[t],here,.mk kind⟩

def Operated (table : Kind → Option α) (before : List Token) : Option (α × Nat) → List Token → Prop
  | some (op,line),after => ∃ t, before = t :: after ∧ table t.kind = some op ∧ line = t.line
  | none,after => after = before ∧ table (before.headD Token.missingEnd).kind = none

theorem soundOperator {table : Kind → Option α} (noEnd : table .eof = none) :
    Sound (operator table) (Operated table) := by
  intro c
  refine soundPeek ?_
  split
  · rename_i op found
    cases here : c.rest with
    | nil => simp [Cursor.peek,here,Token.missingEnd,noEnd] at found
    | cons t rest =>
      have head : c.peek = t := by simp [Cursor.peek,here]
      rw [head] at found
      refine soundSkip here ?_ fun c' there => soundPure ⟨t,by rw [there],found,by rw [head]⟩
      intro kind
      simp [kind,noEnd] at found
  · rename_i absent
    exact soundPure ⟨rfl,absent⟩

/- One step on a value: `phrase` relates it to all tokens it was made of, those before the step included. -/
def Grows (phrase : List Token → α → Prop) (a : α) (before : List Token) : Option α → List Token → Prop
  | some b,after => ∀ ts, phrase ts a → ∃ us, before = us ++ after ∧ phrase (ts ++ us) b
  | none,after => after = before

theorem soundGrow {step : α → Parser (Option α)} {phrase : List Token → α → Prop}
    (grows : ∀ a, Sound (step a) (Grows phrase a)) (bound : List Token) (a : α) :
    Sound (grow step bound a) fun before b after =>
      ∀ ts, phrase ts a → ∃ us, before = us ++ after ∧ phrase (ts ++ us) b := by
  induction bound generalizing a with
  | nil => exact fun c => soundPure fun ts start => ⟨[],rfl,by simpa using start⟩
  | cons _ bound ih =>
    intro c
    refine (grows a c).bind fun r c' => ?_
    cases r with
    | none => exact soundPure fun same ts start => ⟨[],same.symm,by simpa using start⟩
    | some b =>
      refine (ih b c').mono ?_
      intro last after later grown ts start
      obtain ⟨us,here,middle⟩ := grown ts start
      obtain ⟨vs,there,finish⟩ := later (ts ++ us) middle
      exact ⟨us ++ vs,by simp [here,there],by simpa using finish⟩

theorem soundGrowing {step : α → Parser (Option α)} {phrase : List Token → α → Prop}
    (grows : ∀ a, Sound (step a) (Grows phrase a)) (a : α) :
    Sound (growing step a) fun before b after =>
      ∀ ts, phrase ts a → ∃ us, before = us ++ after ∧ phrase (ts ++ us) b :=
  fun c => soundGrow grows c.rest a c

theorem soundCollect {stop : Parser Bool} {item : Parser (Option α)} {phrase : List Token → Option α → Prop}
    {list : List Token → List α → Prop} (stops : Sound stop fun before _ after => after = before)
    (items : Sound item (Span phrase)) (none : list [] [])
    (more : ∀ {ts us x xs}, phrase ts x → list us xs → list (ts ++ us) (x.toList ++ xs))
    (bound : List Token) : Sound (collect stop item bound) (Span list) := by
  induction bound with
  | nil => exact fun c => soundPure ⟨[],rfl,none⟩
  | cons _ bound ih =>
    intro c
    refine (stops c).bind fun stopped c' => ?_
    cases stopped with
    | true => exact soundPure fun same => ⟨[],same.symm,none⟩
    | false =>
      refine (items c').bind fun x c'' => (ih c'').bind fun xs c''' => soundPure ?_
      rintro ⟨us,later,rest⟩ ⟨ts,here,first⟩ same
      exact ⟨ts ++ us,by rw [← same,here,later,List.append_assoc],more first rest⟩

/- Items that consume tokens reach the stopping place before the bound is used up. -/
theorem soundCollectStops {stop : Parser Bool} {item : Parser (Option α)} {test : List Token → Bool}
    (stops : Sound stop fun before b after => after = before ∧ b = test before)
    (items : Sound item fun before _ after => after.length < before.length) (empty : test [] = true)
    (bound : List Token) :
    Sound (collect stop item bound) fun before _ after => before.length ≤ bound.length → test after = true := by
  induction bound with
  | nil =>
    intro c
    refine soundPure fun short => ?_
    have nothing : c.rest = [] := List.eq_nil_of_length_eq_zero (by simpa using short)
    rw [nothing,empty]
  | cons _ bound ih =>
    intro c
    refine (stops c).bind fun stopped c' => ?_
    cases stopped with
    | true =>
      refine soundPure ?_
      rintro ⟨same,holds⟩ _
      rw [same,← holds]
    | false =>
      refine (items c').bind fun x c'' => (ih c'').bind fun xs c''' => soundPure ?_
      rintro later shorter ⟨same,_⟩ enough
      simp only [List.length_cons] at enough
      exact later (by rw [same] at shorter; omega)

theorem soundCommaList {item : Parser α} {full : SyntaxFault} {phrase : List Token → α → Prop}
    (items : Sound item (Span phrase)) (room : Nat) :
    Sound (commaList item full room) (Span fun ts xs => Separated phrase ts xs ∧ xs.length ≤ room) := by
  induction room with
  | zero => exact fun c => soundPeek soundFail
  | succ room ih =>
    intro c
    refine (items c).bind fun x c' => (soundAccept rfl c').bind fun comma c'' => ?_
    cases comma with
    | none =>
      refine soundPure ?_
      rintro ⟨same,_⟩ ⟨ts,here,first⟩
      exact ⟨ts,by rw [here,same],.last first,by simp⟩
    | some comma =>
      refine (ih c'').bind fun xs c''' => soundPure ?_
      rintro ⟨us,later,rest,few⟩ ⟨between,kind⟩ ⟨ts,here,first⟩
      exact ⟨ts ++ comma :: us,by simp [here,between,later],.more first kind rest,by simpa using few⟩

inductive Bracketed (list : List Token → List α → Prop) : List Token → List α × Token → Prop where
  | mk {ts xs closing} (inner : list ts xs) (after : closing.kind = .symbol .rightParen) :
      Bracketed list (ts ++ [closing]) (xs,closing)

theorem soundBracketed {item : Parser α} {full : SyntaxFault} {close : Expected}
    {phrase : List Token → α → Prop} {list : List Token → List α → Prop} (items : Sound item (Span phrase))
    (none : list [] []) (some : ∀ {ts xs}, Separated phrase ts xs → xs.length ≤ 255 → list ts xs) :
    Sound (bracketed item full close) (Span (Bracketed list)) := by
  intro c
  refine soundCheck ?_
  have closed : ∀ xs c', SoundAt (do return (xs,← expect (.symbol .rightParen) close)) c'
      fun r after => ∀ before, Span list before xs c'.rest → Span (Bracketed list) before r after := by
    intro xs c'
    refine (soundExpect rfl c').bind fun closing c'' => soundPure ?_
    rintro ⟨last,kind⟩ before ⟨ts,here,inner⟩
    exact ⟨ts ++ [closing],by simp [here,last],.mk inner kind⟩
  split
  · exact (closed [] c).mono fun r after holds => holds c.rest ⟨[],rfl,none⟩
  · refine (soundCommaList items maxArguments c).bind fun xs c' => (closed xs c').mono ?_
    rintro r after holds ⟨ts,here,inner,few⟩
    exact holds c.rest ⟨ts,here,some inner few⟩

theorem soundParameters :
    Sound parameters (Span fun ts names => ∃ us closing, ts = us ++ [closing] ∧ Grammar.Parameters us names ∧
      closing.kind = .symbol .rightParen) := by
  intro c
  refine (soundBracketed soundIdent Parameters.none Parameters.some c).bind fun r c' => soundPure ?_
  rintro ⟨ts,here,inner⟩
  cases inner with
  | @mk us names closing inner kind => exact ⟨us ++ [closing],here,us,closing,rfl,inner,kind⟩

theorem soundAtEnd : Sound atEnd fun before b after =>
    after = before ∧ b = (before.headD Token.missingEnd).kind.agrees .eof :=
  fun _ => ⟨List.prefix_rfl,fun _ => ⟨.refl _,rfl,rfl⟩⟩

theorem soundAtBlockEnd : Sound atBlockEnd fun before _ after => after = before :=
  fun _ => ⟨List.prefix_rfl,fun _ => ⟨.refl _,rfl⟩⟩

end Parser
end Treewalk
