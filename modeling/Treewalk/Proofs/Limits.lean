import Treewalk.Proofs.Restored

/-! The limit of a run does not show in what it comes to: a run that ends within a limit ends in the same way within
every greater one. -/
namespace Treewalk

/- The longer run does what the shorter one does, wherever that one is not cut off. -/
def Extends (short long : Run α) : Prop := ∀ m, (∃ m', short m = .error .exhausted m') ∨ long m = short m

namespace Extends

theorem refl (action : Run α) : Extends action action := fun _ => .inr rfl

theorem trans {short middle long : Run α} (first : Extends short middle) (second : Extends middle long) :
    Extends short long := by
  intro m
  rcases first m with cut | same
  · exact .inl cut
  · rcases second m with ⟨m', cut⟩ | same'
    · exact .inl ⟨m', same.symm.trans cut⟩
    · exact .inr (same'.trans same)

theorem bind {short long : Run α} {next longNext : α → Run β} (first : Extends short long)
    (second : ∀ a, Extends (next a) (longNext a)) : Extends (short >>= next) (long >>= longNext) := by
  intro m
  change (∃ m', EStateM.bind short next m = _) ∨ EStateM.bind long longNext m = EStateM.bind short next m
  unfold EStateM.bind
  rcases first m with ⟨m', cut⟩ | same
  · exact .inl ⟨m', by rw [cut]⟩
  · rw [same]
    cases short m with
    | ok a m' => exact second a m'
    | error e m' => exact .inr rfl

theorem within {short long : Run α} (frame : FrameId) (h : Extends short long) :
    Extends (Run.within frame short) (Run.within frame long) := by
  intro m
  unfold Run.within
  rcases h { m with environment := frame } with ⟨m', cut⟩ | same
  · exact .inl ⟨{ m' with environment := m.environment }, by simp only [cut]⟩
  · exact .inr (by simp only [same])

theorem counted {short long : Run α} (h : Extends short long) : Extends (Run.counted short) (Run.counted long) := by
  intro m
  unfold Run.counted
  rcases h { m with callDepth := m.callDepth + 1 } with ⟨m', cut⟩ | same
  · exact .inl ⟨{ m' with callDepth := m'.callDepth - 1 }, by rw [cut]⟩
  · exact .inr (by rw [same])

theorem admitted {callee : Callee} {arguments : List Value} {line : Nat} {short long : Run Value}
    (h : Extends short long) :
    Extends (Run.admitted callee arguments line short) (Run.admitted callee arguments line long) := by
  intro m
  unfold Run.admitted
  dsimp only
  split
  · exact .inr rfl
  · split
    · exact .inr rfl
    · exact h.counted m

theorem congruence : Congruence fun _ => Extends := ⟨fun _ => .refl _, .bind, .within⟩

theorem finish {short long : Run α} (h : Extends short long) {m m' : Machine} {outcome : Except RuntimeError α}
    (ends : short.finish m = some (outcome, m')) : long.finish m = some (outcome, m') := by
  unfold Run.finish at ends ⊢
  rcases h m with ⟨after, cut⟩ | same
  · rw [cut] at ends
    cases ends
  · rwa [same]

theorem ok {short long : Run α} (h : Extends short long) {m m' : Machine} {a : α} (ends : short m = .ok a m') :
    long m = .ok a m' := by
  rcases h m with ⟨after, cut⟩ | same
  · cases cut.symm.trans ends
  · exact same.trans ends

end Extends

theorem exhaustedExtended (long : Run α) : Extends Run.exhausted long := fun m => .inl ⟨m, rfl⟩

theorem evaluatorExtendedOnce (limit : Nat) : Related (fun _ => Extends) (evaluator limit) (evaluator (limit + 1)) := by
  induction limit with
  | zero =>
    exact ⟨fun _ => exhaustedExtended _, fun _ => exhaustedExtended _, fun _ _ _ => exhaustedExtended _⟩
  | succ limit ih =>
    exact ⟨Extends.congruence.evalRule ih, Extends.congruence.execRule ih,
      fun callee arguments line => .admitted (Extends.congruence.start ih callee arguments line)⟩

theorem evaluatorExtended {limit greater : Nat} (more : limit ≤ greater) :
    Related (fun _ => Extends) (evaluator limit) (evaluator greater) := by
  induction more with
  | refl => exact ⟨fun _ => .refl _, fun _ => .refl _, fun _ _ _ => .refl _⟩
  | step _ ih =>
    have once := evaluatorExtendedOnce
    exact ⟨fun e => (ih.eval e).trans ((once _).eval e), fun s => (ih.exec s).trans ((once _).exec s),
      fun callee arguments line => (ih.call callee arguments line).trans ((once _).call callee arguments line)⟩

theorem evalUnique {limit other : Nat} {e : Expr} {m m' m'' : Machine} {value value' : Value}
    (first : (evaluator limit).eval e m = .ok value m') (second : (evaluator other).eval e m = .ok value' m'') :
    value = value' ∧ m' = m'' := by
  have one := ((evaluatorExtended (Nat.le_max_left limit other)).eval e).ok first
  have two := ((evaluatorExtended (Nat.le_max_right limit other)).eval e).ok second
  cases one.symm.trans two
  exact ⟨rfl, rfl⟩

theorem programExtended {limit greater : Nat} (more : limit ≤ greater) (program : Program) :
    Extends ((evaluator limit).execProgram program) ((evaluator greater).execProgram program) :=
  Extends.congruence.execProgram (evaluatorExtended more) program

end Treewalk
