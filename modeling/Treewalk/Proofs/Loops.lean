import Treewalk.Proofs.Grammar
import Treewalk.Proofs.Limits

/-! What a `for` loop is meant to do, said of its parts. They all stand in one scope, which is a new one if there is an
initializer. It does not depend on how the limit of a run is counted: the loop that counts its rounds and the loop that
counts as a tree does come to the same. -/
namespace Treewalk

open Walk

structure ForLoop where
  initializer : Option Stmt
  condition : Option Expr
  body : Stmt
  increment : Option Expr

namespace ForLoop

def tree (loop : ForLoop) (line : Nat) : Stmt :=
  Grammar.forTree line loop.condition loop.body loop.initializer loop.increment

def resolveOption : Option Expr → Walk (Option Expr)
  | none => return none
  | some e => return some (← e.resolve)

def resolveRound (body : Stmt) (increment : Option Expr) : Walk (Stmt × Option Expr) :=
  return (← body.resolve, ← resolveOption increment)

def resolveParts (loop : ForLoop) (initializer : Option Stmt) : Walk ForLoop := do
  let condition ← resolveOption loop.condition
  let (body, increment) ← resolveRound loop.body loop.increment
  return ⟨initializer, condition, body, increment⟩

def resolve (loop : ForLoop) : Walk ForLoop :=
  match loop.initializer with
  | none => loop.resolveParts none
  | some first => inScope .empty do
    let first ← first.resolve
    loop.resolveParts (some first)

def holds (r : Evaluator) : Option Expr → Run Bool
  | none => return true
  | some condition => return (← r.eval condition).isTruthy

def advance (r : Evaluator) : Option Expr → Run Unit
  | none => return ()
  | some increment => do
    let value ← r.eval increment
    Run.setLast value

/- The body and then the increment, as long as the condition holds; at most so many times. -/
def rounds (loop : ForLoop) (r : Evaluator) : Nat → Run Completion
  | 0 => Run.exhausted
  | more + 1 => do
    if ← holds r loop.condition then
      match ← r.exec loop.body with
      | .normal =>
        advance r loop.increment
        loop.rounds r more
      | .returned value => return .returned value
    else return .normal

def run (loop : ForLoop) (limit : Nat) : Run Completion :=
  match loop.initializer with
  | none => loop.rounds (evaluator limit) limit
  | some first => do
    let environment ← Run.environment
    Run.inNewFrame environment do
      match ← (evaluator limit).exec first with
      | .normal => loop.rounds (evaluator limit) limit
      | .returned value => return .returned value

def test (loop : ForLoop) (line : Nat) : Expr := loop.condition.getD (.literal (.bool true) line)

def pacedHolds (loop : ForLoop) (line limit : Nat) : Run Bool :=
  return (← (evaluator limit).eval (loop.test line)).isTruthy

def pacedRound (body : Stmt) : Option Expr → Nat → Run Completion
  | none, limit => (evaluator limit).exec body
  | some _, 0 => Run.exhausted
  | some increment, limit + 1 => (evaluator limit).execAll [body, .expression increment]

def paced (loop : ForLoop) (line : Nat) : Nat → Run Completion
  | 0 => Run.exhausted
  | limit + 1 => do
    if ← loop.pacedHolds line limit then
      match ← pacedRound loop.body loop.increment limit with
      | .normal => loop.paced line limit
      | .returned value => return .returned value
    else return .normal

def pacedRun (loop : ForLoop) (line : Nat) : Nat → Run Completion
  | 0 => match loop.initializer with
    | none => loop.paced line 0
    | some _ => Run.exhausted
  | limit + 1 => match loop.initializer with
    | none => loop.paced line (limit + 1)
    | some first => do
      let environment ← Run.environment
      Run.inNewFrame environment do
        match ← (evaluator limit).exec first with
        | .normal => loop.paced line limit
        | .returned value => return .returned value

section Limits
variable {loop : ForLoop} {line : Nat}

theorem holdsExtended {limit greater : Nat} (more : limit ≤ greater) (condition : Option Expr) :
    Extends (holds (evaluator limit) condition) (holds (evaluator greater) condition) := by
  cases condition with
  | none => exact .refl _
  | some e => exact ((evaluatorExtended more).eval e).bind fun _ => .refl _

theorem advanceExtended {limit greater : Nat} (more : limit ≤ greater) (increment : Option Expr) :
    Extends (advance (evaluator limit) increment) (advance (evaluator greater) increment) := by
  cases increment with
  | none => exact .refl _
  | some e => exact ((evaluatorExtended more).eval e).bind fun _ => .refl _

theorem roundsExtended {limit greater count longer : Nat} (more : limit ≤ greater) (further : count ≤ longer) :
    Extends (loop.rounds (evaluator limit) count) (loop.rounds (evaluator greater) longer) := by
  induction count generalizing longer with
  | zero => exact exhaustedExtended _
  | succ count ih =>
    obtain ⟨rest, rfl⟩ := Nat.exists_eq_add_of_le' further
    refine (holdsExtended more loop.condition).bind fun holding => ?_
    cases holding with
    | false => exact .refl _
    | true =>
      refine ((evaluatorExtended more).exec loop.body).bind fun completion => ?_
      cases completion with
      | normal => exact (advanceExtended more loop.increment).bind fun _ => ih (Nat.le_add_left count rest)
      | returned value => exact .refl _

theorem pacedHoldsExtended {limit greater : Nat} (more : limit ≤ greater) :
    Extends (loop.pacedHolds line limit) (holds (evaluator greater) loop.condition) := by
  unfold pacedHolds test
  cases loop.condition with
  | none =>
    cases limit with
    | zero => exact exhaustedExtended _
    | succ limit => exact .refl _
  | some e => exact ((evaluatorExtended more).eval e).bind fun _ => .refl _

theorem holdsPaced {limit greater : Nat} (more : limit < greater) :
    Extends (holds (evaluator limit) loop.condition) (loop.pacedHolds line greater) := by
  unfold pacedHolds test
  cases loop.condition with
  | none =>
    cases more with
    | refl => exact .refl _
    | step _ => exact .refl _
  | some e => exact ((evaluatorExtended (Nat.le_of_lt more)).eval e).bind fun _ => .refl _

theorem execIncremented (limit : Nat) (body : Stmt) (e : Expr) (next : Completion → Run α) :
    (evaluator (limit + 1)).execAll [body, .expression e] >>= next =
      ((evaluator (limit + 1)).exec body >>= fun completion =>
        match completion with
        | .normal => advance (evaluator limit) (some e) >>= fun _ => next .normal
        | .returned value => next (.returned value)) := by
  have last : (evaluator (limit + 1)).execAll [.expression e] =
      (advance (evaluator limit) (some e) >>= fun _ => pure .normal) := by
    have opened : (evaluator (limit + 1)).exec (.expression e) =
      ((evaluator limit).eval e >>= fun value => Run.setLast value >>= fun _ => pure .normal) := rfl
    simp only [Evaluator.execAll, opened, advance, bind_assoc, pure_bind]
  rw [Evaluator.execAll, bind_assoc]
  congr 1
  funext completion
  cases completion with
  | normal =>
    dsimp only
    rw [last, bind_assoc]
    rfl
  | returned value => rfl

theorem pacedRoundExtended {limit greater : Nat} (more : limit ≤ greater) {next longNext : Run Completion}
    (later : Extends next longNext) :
    Extends (do
        match ← pacedRound loop.body loop.increment limit with
        | .normal => next
        | .returned value => return .returned value)
      (do
        match ← (evaluator greater).exec loop.body with
        | .normal =>
          advance (evaluator greater) loop.increment
          longNext
        | .returned value => return .returned value) := by
  cases loop.increment with
  | none =>
    refine ((evaluatorExtended more).exec loop.body).bind fun completion => ?_
    cases completion with
    | normal => exact later
    | returned value => exact .refl _
  | some e =>
    cases limit with
    | zero => exact exhaustedExtended _
    | succ limit =>
      cases limit with
      | zero => exact exhaustedExtended _
      | succ limit =>
        unfold pacedRound
        rw [execIncremented]
        refine ((evaluatorExtended (Nat.le_of_succ_le more)).exec loop.body).bind fun completion => ?_
        cases completion with
        | normal => exact (advanceExtended (by omega) (some e)).bind fun _ => later
        | returned value => exact .refl _

theorem roundPaced {limit greater : Nat} (more : limit + 2 ≤ greater) {next longNext : Run Completion}
    (later : Extends next longNext) :
    Extends (do
        match ← (evaluator limit).exec loop.body with
        | .normal =>
          advance (evaluator limit) loop.increment
          next
        | .returned value => return .returned value)
      (do
        match ← pacedRound loop.body loop.increment greater with
        | .normal => longNext
        | .returned value => return .returned value) := by
  obtain ⟨rest, rfl⟩ := Nat.exists_eq_add_of_le' more
  cases loop.increment with
  | none =>
    refine ((evaluatorExtended (by omega)).exec loop.body).bind fun completion => ?_
    cases completion with
    | normal => exact later
    | returned value => exact .refl _
  | some e =>
    have opened : pacedRound loop.body (some e) (rest + (limit + 2)) =
        (evaluator (rest + limit + 1)).execAll [loop.body, .expression e] := rfl
    rw [opened, execIncremented]
    refine ((evaluatorExtended (by omega)).exec loop.body).bind fun completion => ?_
    cases completion with
    | normal => exact (advanceExtended (by omega) (some e)).bind fun _ => later
    | returned value => exact .refl _

theorem pacedExtended (limit : Nat) : Extends (loop.paced line limit) (loop.rounds (evaluator limit) limit) := by
  induction limit with
  | zero => exact exhaustedExtended _
  | succ limit ih =>
    refine (pacedHoldsExtended (Nat.le_succ limit)).bind fun holding => ?_
    cases holding with
    | false => exact .refl _
    | true =>
      have more := Nat.le_succ limit
      exact pacedRoundExtended more (ih.trans (roundsExtended more (Nat.le_refl limit)))

theorem roundsPaced {limit count greater : Nat} (more : limit + count + 2 ≤ greater) :
    Extends (loop.rounds (evaluator limit) count) (loop.paced line greater) := by
  induction count generalizing greater with
  | zero => exact exhaustedExtended _
  | succ count ih =>
    cases greater with
    | zero => omega
    | succ greater =>
      refine (holdsPaced (by omega)).bind fun holding => ?_
      cases holding with
      | false => exact .refl _
      | true => exact roundPaced (by omega) (ih (by omega))

theorem pacedRunExtended (limit : Nat) : Extends (loop.pacedRun line limit) (loop.run limit) := by
  cases limit with
  | zero =>
    unfold pacedRun run
    cases loop.initializer with
    | none => exact pacedExtended 0
    | some first => exact exhaustedExtended _
  | succ limit =>
    unfold pacedRun run
    cases loop.initializer with
    | none => exact pacedExtended (limit + 1)
    | some first =>
      have more := Nat.le_succ limit
      refine (Extends.refl Run.environment).bind fun environment => Extends.congruence.inNewFrame environment ?_
      refine ((evaluatorExtended more).exec first).bind fun completion => ?_
      cases completion with
      | normal => exact (pacedExtended limit).trans (roundsExtended more more)
      | returned value => exact .refl _

theorem runPaced (limit : Nat) : Extends (loop.run limit) (loop.pacedRun line (limit + limit + 3)) := by
  unfold run pacedRun
  cases loop.initializer with
  | none => exact roundsPaced (by omega)
  | some first =>
    refine (Extends.refl Run.environment).bind fun environment => Extends.congruence.inNewFrame environment ?_
    refine ((evaluatorExtended (by omega)).exec first).bind fun completion => ?_
    cases completion with
    | normal => exact roundsPaced (Nat.le_refl _)
    | returned value => exact .refl _

end Limits
end ForLoop
end Treewalk
