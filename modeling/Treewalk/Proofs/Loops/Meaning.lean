import Treewalk.Proofs.Lexical.Surroundings
import Treewalk.Proofs.Loops
import Treewalk.Proofs.Loops.Gaps
import Treewalk.Proofs.Scanned
import Treewalk.Proofs.Twins.Whole

/-! A `for` loop and the tree that stands for it. The tree has one scope more than the loop: a block around the body and
the increment. Nothing is declared in it, so its frames make no difference to anything that a run can show. -/
namespace Treewalk

open Walk World

def ForLoop.roundTree (body : Stmt) : Option Expr → Stmt
  | none => body
  | some increment => .block [body, .expression increment]

theorem ForLoop.treeParts (loop : ForLoop) (line : Nat) : loop.tree line =
    match loop.initializer with
    | none => .whileLoop (loop.test line) (roundTree loop.body loop.increment)
    | some first => .block [first, .whileLoop (loop.test line) (roundTree loop.body loop.increment)] := by
  obtain ⟨initializer, condition, body, increment⟩ := loop
  cases initializer <;> cases increment <;> rfl

inductive RoundLike (layers : List Layer) : Stmt → Option Expr → Stmt → Option Expr → Prop where
  | alone {s s'} (body : Stmt.Like .same layers s s') : RoundLike layers s none s' none
  | followed {s s' e e'} (body : Stmt.Like .same (.extra :: layers) s s')
      (increment : Expr.Like .same (.extra :: layers) e e') :
      RoundLike layers s (some e) s' (some e')

structure ForLoop.Like (loop loop' : ForLoop) : Prop where
  initializer : loop'.initializer = loop.initializer
  condition : loop'.condition = loop.condition
  round : ∀ layers, Layer.Plain layers → RoundLike layers loop.body loop.increment loop'.body loop'.increment

def ScopeContext.Complete (c : ScopeContext) : Prop :=
  ∀ scope, c.scopes[0]? = some scope → ∀ name, scope.find? name ≠ some false

theorem ScopeContext.Complete.introduced {c c' : ScopeContext} (complete : c.Complete) {names : List String}
    (moves : Introduces names c c') : c'.Complete := by
  have inserted : ∀ scope : Scope, (∀ name, scope.find? name ≠ some false) →
      ∀ name, (scope.introduce names).find? name ≠ some false := by
    intro scope complete name
    rw [introduceFind]
    split
    · exact fun same => Bool.noConfusion (Option.some.inj same)
    · exact complete name
  intro scope innermost
  rw [moves.scopes] at innermost
  cases scopes : c.scopes with
  | nil =>
    rw [scopes] at innermost
    cases innermost
  | cons head outer =>
    rw [scopes] at innermost
    cases Option.some.inj innermost
    exact inserted head (complete head (by rw [scopes]; rfl))

section Resolution
variable {c : ScopeContext}

theorem statementComplete {programs : List Program} {address : Address} {place : Place} {s : Stmt}
    (located : Located programs address place (.stmt s)) : place.context.Complete := by
  intro scope innermost name incomplete
  cases scopes : place.context.scopes with
  | nil =>
    rw [scopes] at innermost
    cases innermost
  | cons first outside =>
    rw [scopes] at innermost
    cases innermost
    obtain ⟨_, _, _, _, _, _, rfl, direct, declaration, _⟩ := pendingDirect located rfl scopes incomplete
    obtain ⟨⟨_, isExpr⟩, _⟩ := initializerScopes located declaration direct
    cases isExpr

theorem loopProper {loop : ForLoop} {line : Nat} (proper : (loop.tree line).Proper) :
    loop.body.Proper ∧ ∀ e, loop.increment = some e → e.Proper := by
  have inner : (ForLoop.roundTree loop.body loop.increment).Proper := by
    rw [loop.treeParts] at proper
    cases initializer : loop.initializer with
    | none =>
      rw [initializer] at proper
      exact proper.2.1
    | some first =>
      rw [initializer] at proper
      exact proper.2.1.2.1
  cases increment : loop.increment with
  | none =>
    rw [increment] at inner
    exact ⟨inner, fun e given => absurd given (Option.some_ne_none e).symm⟩
  | some e =>
    rw [increment] at inner
    refine ⟨inner.1, ?_⟩
    intro e' given
    cases given
    exact inner.2.1

theorem Along.same (w : Walk α) : Along id c w w (w.result c) := rfl

theorem Along.result {f : List Scope → List Scope} {w : Walk α} {w' : Walk β} {b : β} (goes : Along f c w w' b) :
    b = w'.result (c.moved f) := (congrArg Prod.fst goes).symm

theorem Along.extra {w : Walk α} {w' : Walk β} {b : β}
    (inner : Along (skip 0) { c with scopes := .empty :: c.scopes } w w' b) : Along id c (Walk.inScope .empty w) w' b := by
  have closed : ∀ d : ScopeContext, d.moved (skip 0) = { d with scopes := d.scopes.tail } := by
    intro d
    obtain ⟨scopes, kind, within, errors⟩ := d
    cases scopes <;> rfl
  exact Eq.trans inner (Prod.ext rfl (closed _))

open ForLoop in
theorem roundResolved {body : Stmt} {increment : Option Expr} (proper : body.Proper) (plain : body.declares = [])
    (properNext : ∀ e, increment = some e → e.Proper)
    (complete : c.Complete) :
    ∃ body' increment', (roundTree body increment).resolve.result c = roundTree body' increment' ∧
      increment'.isSome = increment.isSome ∧
      Along id c (roundTree body increment).resolve (resolveRound body increment) ((resolveRound body increment).result c) ∧
      ∀ layers, Layer.Plain layers → RoundLike layers body' increment' ((resolveRound body increment).result c).1
        ((resolveRound body increment).result c).2 := by
  cases increment with
  | none =>
    refine ⟨body.resolve.result c, none, rfl, rfl, rfl, ?_⟩
    intro layers plainLayers
    exact .alone (Stmt.likeSelf .same _ plainLayers)
  | some e =>
    have gap : ∀ layers, Layer.Plain layers → Gap 0 layers { c with scopes := .empty :: c.scopes } :=
      fun layers plainLayers => ⟨plainLayers, rfl, fun _ => complete⟩
    have goesTo : ∀ layers (plainLayers : Layer.Plain layers), ∃ b b',
        Along (skip 0) { c with scopes := .empty :: c.scopes } (Stmt.resolveList [body, .expression e])
          (resolveRound body (some e)) (b, some b') ∧
        Stmt.Like .same (.extra :: layers) (body.resolve.result { c with scopes := .empty :: c.scopes }) b ∧
        Expr.Like .same (.extra :: layers)
          (e.resolve.result (body.resolve.after { c with scopes := .empty :: c.scopes })) b' := by
      intro layers plainLayers
      have gap : Gap 0 layers { c with scopes := .empty :: c.scopes } := ⟨plainLayers, rfl, fun _ => complete⟩
      obtain ⟨b, goes, like⟩ := body.skips gap proper fun _ => plain
      obtain ⟨b', goes', like'⟩ := e.skips (gap.introduced (body.resolveMoves _) fun _ => plain) (properNext e rfl)
      have single : Along (skip 0) _ (Stmt.expression e).resolve e.resolve b' := goes'
      have last : Along (skip 0) _ (Stmt.resolveList [.expression e]) (resolveOption (some e)) (some b') :=
        single.bind .pure
      exact ⟨b, b', goes.bind (last.bind .pure), like, like'⟩
    refine ⟨body.resolve.result { c with scopes := .empty :: c.scopes },
      some (e.resolve.result (body.resolve.after { c with scopes := .empty :: c.scopes })), rfl, rfl, ?_, ?_⟩
    · obtain ⟨b, b', goes, _⟩ := goesTo [] Layer.plainNil
      have same : (b, some b') = (resolveRound body (some e)).result c := goes.result
      rw [← same]
      exact goes.extra
    · intro layers plainLayers
      obtain ⟨b, b', goes, like, like'⟩ := goesTo layers plainLayers
      have same : (b, some b') = (resolveRound body (some e)).result c := goes.result
      rw [← same]
      exact .followed like like'

theorem testResolved (condition : Option Expr) (line : Nat) :
    (condition.getD (.literal (.bool true) line)).resolve.result c =
      ((ForLoop.resolveOption condition).result c).getD (.literal (.bool true) line) ∧
    Along id c (condition.getD (.literal (.bool true) line)).resolve (ForLoop.resolveOption condition)
      ((ForLoop.resolveOption condition).result c) := by
  cases condition with
  | none => exact ⟨rfl, rfl⟩
  | some e => exact ⟨rfl, rfl⟩

section Loop
variable {loop : ForLoop} (line : Nat) (proper : loop.body.Proper) (plain : loop.body.declares = [])
  (properNext : ∀ e, loop.increment = some e → e.Proper)
include proper plain properNext

open ForLoop in
theorem roundsResolved (complete : c.Complete) (first : Option Stmt) :
    ∃ parts : ForLoop, parts.initializer = first ∧ parts.increment.isSome = loop.increment.isSome ∧
      (Stmt.whileLoop (loop.test line) (roundTree loop.body loop.increment)).resolve.result c =
        .whileLoop (parts.test line) (roundTree parts.body parts.increment) ∧
      Along id c (Stmt.whileLoop (loop.test line) (roundTree loop.body loop.increment)).resolve (loop.resolveParts first)
        ((loop.resolveParts first).result c) ∧
      parts.Like ((loop.resolveParts first).result c) := by
  obtain ⟨tested, goes⟩ := testResolved (c := c) loop.condition line
  obtain ⟨body', increment', same, stepped, goes', like⟩ := roundResolved (c := (loop.test line).resolve.after c) proper plain
    properNext (complete.introduced ((loop.test line).resolveSteady c))
  have both : Along id c (Stmt.whileLoop (loop.test line) (roundTree loop.body loop.increment)).resolve
      (loop.resolveParts first) _ := goes.bind (goes'.bind .pure)
  have ends := both.result
  refine ⟨⟨first, (resolveOption loop.condition).result c, body', increment'⟩, rfl, stepped, ?_, ?_, ?_⟩
  · exact congrArg₂ Stmt.whileLoop tested same
  · rw [show (loop.resolveParts first).result c = _ from ends.symm]
    exact both
  · rw [show (loop.resolveParts first).result c = _ from ends.symm]
    exact ⟨rfl, rfl, like⟩

open ForLoop in
theorem loopResolved (complete : c.Complete) :
    ∃ parts : ForLoop, (loop.tree line).resolve.result c = parts.tree line ∧
      parts.increment.isSome = loop.increment.isSome ∧
      loop.resolve.after c = (loop.tree line).resolve.after c ∧ parts.Like (loop.resolve.result c) := by
  have goal : ∃ parts : ForLoop, (loop.tree line).resolve.result c = parts.tree line ∧
      parts.increment.isSome = loop.increment.isSome ∧
      Along id c (loop.tree line).resolve loop.resolve (loop.resolve.result c) ∧ parts.Like (loop.resolve.result c) := by
    rw [loop.treeParts]
    unfold ForLoop.resolve
    cases loop.initializer with
    | none =>
      obtain ⟨parts, without, stepped, same, goes, like⟩ := roundsResolved line proper plain properNext complete none
      refine ⟨parts, ?_, stepped, goes, like⟩
      rw [parts.treeParts, without]
      exact same
    | some first =>
      have new : ScopeContext.Complete { c with scopes := .empty :: c.scopes } := by
        intro scope innermost name found
        cases Option.some.inj innermost
        cases found
      have complete' := new.introduced (first.resolveMoves _)
      obtain ⟨parts, within, stepped, same, goes, like⟩ := roundsResolved line proper plain properNext complete'
        (some (first.resolve.result { c with scopes := .empty :: c.scopes }))
      refine ⟨parts, ?_, stepped, ?_, like⟩
      · rw [parts.treeParts, within]
        exact congrArg (fun s => Stmt.block [_, s]) same
      · have inner : Along id _ (Stmt.resolveList [.whileLoop (loop.test line) (roundTree loop.body loop.increment)])
            (loop.resolveParts _) _ := goes
        have both : Along id { c with scopes := .empty :: c.scopes }
            (Stmt.resolveList [first, .whileLoop (loop.test line) (roundTree loop.body loop.increment)])
            (first.resolve >>= fun first => loop.resolveParts (some first)) _ := (Along.same first.resolve).bind inner
        refine Along.inScope ?_ (fun _ => ?_) both
        · rfl
        · rfl
  obtain ⟨parts, same, stepped, goes, like⟩ := goal
  exact ⟨parts, same, stepped, congrArg Prod.snd goes, like⟩

end Loop
end Resolution

theorem execAlone (r : Evaluator) (s : Stmt) : r.execAll [s] = r.exec s := by
  funext m
  change EStateM.bind (r.exec s) _ m = _
  unfold EStateM.bind
  cases r.exec s m with
  | ok completion m' => cases completion <;> rfl
  | error e m' => rfl

section Runs
variable {w : World} {m m' : Machine} {layers : List Layer} (t : Twins .same w m m') (level : Level w m m' layers)
include t level

open ForLoop in
theorem roundTied {body body' : Stmt} {increment increment' : Option Expr}
    (like : RoundLike layers body increment body' increment') (limit : Nat) :
    Tied .same w m m' ((evaluator limit).exec (roundTree body increment)) (pacedRound body' increment' limit) Same := by
  have mates := evaluatorMates .same
  cases like with
  | alone like => exact (mates limit).exec t level like
  | followed like next =>
    cases limit with
    | zero => exact .exhausted
    | succ limit =>
      refine Tied.inExtraFrame t level ?_
      intro v n n' _ twins level'
      exact (mates limit).execAll twins level' ⟨_, _, rfl, like, _, _, rfl, ⟨_, rfl, next⟩, rfl⟩

open ForLoop in
theorem roundsTied {loop loop' : ForLoop} (line : Nat) (plain : Layer.Plain layers) (like : loop.Like loop') (limit : Nat) :
    Tied .same w m m' ((evaluator limit).exec (.whileLoop (loop.test line) (roundTree loop.body loop.increment)))
      (loop'.paced line limit) Same := by
  have same : loop'.test line = loop.test line := by rw [test, like.condition, test]
  induction limit generalizing w m m' with
  | zero => exact .exhausted
  | succ limit ih =>
    have tested : Tied .same w m m' ((evaluator limit).eval (loop.test line)) (loop'.pacedHolds line limit)
        fun _ value holding => holding = value.isTruthy := by
      unfold pacedHolds
      rw [same]
      exact ((evaluatorMates .same limit).eval t level (Expr.likeSelf .same _ plain)).mapped Value.isTruthy
    refine tested.bind ?_
    intro v n n' value holding after here
    cases here
    cases value.isTruthy with
    | false => exact .pure after.twins rfl
    | true =>
      refine (roundTied after.twins (after.level level) (like.round layers plain) limit).next ?_
      intro u l l' completion later
      cases completion with
      | normal => exact ih later.twins (later.level (after.level level))
      | returned value => exact .pure later.twins rfl

open ForLoop in
theorem loopTied {loop loop' : ForLoop} (line : Nat) (plain : Layer.Plain layers) (like : loop.Like loop') (limit : Nat) :
    Tied .same w m m' ((evaluator limit).exec (loop.tree line)) (loop'.pacedRun line limit) Same := by
  rw [loop.treeParts]
  cases limit with
  | zero =>
    unfold pacedRun
    rw [like.initializer]
    cases loop.initializer with
    | none => exact roundsTied t level line plain like 0
    | some first => exact .exhausted
  | succ limit =>
    unfold pacedRun
    rw [like.initializer]
    cases loop.initializer with
    | none => exact roundsTied t level line plain like (limit + 1)
    | some first =>
      refine (Tied.environment t level).bind ?_
      intro v n n' id twin after linked
      refine Tied.inNewFrame after.twins linked false ?_
      intro u l l' _ twins level'
      refine ((evaluatorMates .same limit).exec twins level' (Stmt.likeSelf .same first plain.cons)).next ?_
      intro u' k k' completion later
      cases completion with
      | normal =>
        dsimp only
        rw [execAlone]
        exact roundsTied later.twins (later.level level') line plain.cons like limit
      | returned value => exact .pure later.twins rfl

end Runs

/- What a host can tell of two machines, one after the tree and one after the loop: nothing new. The frames that were
there before are the same in both. The closures that are new in the first may have frames without bindings around them. -/
structure SameEffect (m n n' : Machine) : Prop where
  output : n'.output = n.output
  lastValue : n'.lastValue = n.lastValue
  instances : n'.heap.instances = n.heap.instances
  frames : ∀ id frame, m.heap.frames.frame? id = some frame →
    ∃ after, n.heap.frames.frame? id = some after ∧ n'.heap.frames.frame? id = some after
  closures : ∃ v, m.world.Le v ∧ Twins .same v n n'
  later : ∀ (limit : Nat) (requests : List Request), Option.Rel
    (fun l l' : Machine => l'.output = l.output ∧ l'.lastValue = l.lastValue ∧ l'.heap.instances = l.heap.instances)
    (requests.foldlM (Machine.serve limit) n) (requests.foldlM (Machine.serve limit) n')

theorem sameEffect {m n n' : Machine} {v : World} (whole : m.Whole) (after : After .same m.world m m v n n') :
    SameEffect m n n' := by
  refine ⟨after.twins.output, after.twins.lastValue, after.twins.instances, ?_, ⟨v, after.le, after.twins⟩, ?_⟩
  · intro id frame here
    have known := after.le _ _ (Machine.inWorld ⟨frame, here⟩)
    obtain ⟨_, frame', first, second, _⟩ := after.twins.frames.fits id _ known
    exact ⟨frame', first, second⟩
  · intro limit requests
    refine relLater ?_ (sessionTwins after.twins (after.level whole.level) limit requests)
    intro l l' ⟨u, more⟩
    exact ⟨more.twins.output, more.twins.lastValue, more.twins.instances⟩

theorem ResultLike.same {result result' : Except RuntimeError α} (like : ResultLike .same result result') :
    result' = result := by
  cases like with
  | ok => rfl
  | error like =>
    cases like with
    | same => rfl
    | undefined known => rfl

/- The frame of the block around a round is empty when the block is left, and so it stays. -/
theorem roundFrameEmpty {body body' : Stmt} {next next' : Option Expr} {increment : Expr} (given : next = some increment)
    (like : RoundLike [] body next body' next') {m n : Machine} (whole : m.Whole) {limit : Nat}
    {outcome : Except RuntimeError Completion}
    (ends : ((evaluator limit).exec (.block [body, .expression increment])).finish m = some (outcome, n)) {limit' : Nat}
    {requests : List Request} {n' : Machine} (served : requests.foldlM (Machine.serve limit') n = some n') :
    n'.heap.frames.frame? m.heap.frames.nextId = some ⟨some m.environment, .empty⟩ := by
  cases limit with
  | zero => cases ends
  | succ limit =>
    have t := whole.twins .same
    cases like with
    | alone like => cases given
    | followed like last =>
      cases given
      have statements : Stmt.LikeAll .same [.extra] [body, .expression increment] [body', .expression _] :=
        ⟨_, _, rfl, like, _, _, rfl, ⟨_, rfl, last⟩, rfl⟩
      have tied := Tied.withinExtra t whole.level fun v n n' _ twins level =>
        (evaluatorMates .same limit).execAll twins level statements
      have ran : (Run.within m.heap.frames.nextId ((evaluator limit).execAll [body, .expression increment])).finish
          (m.addFrame m.environment) = some (outcome, n) := ends
      obtain ⟨_, _, v, _, _, after⟩ := tied.ends ran
      have known := leAdd t.frames.unknown ⟨[.extra], m.environment⟩
      have later := sessionTwins after.twins (after.level (known _ _ whole.level)) limit' requests
      rw [served] at later
      generalize requests.foldlM (Machine.serve limit') _ = other at later
      cases later with
      | some later =>
        obtain ⟨u, more⟩ := later
        have le := after.le.trans more.le
        obtain ⟨parent, found, up⟩ := more.twins.frames.fits _ _ (le _ _ (addHere _ _ _))
        obtain ⟨same, _⟩ := more.twins.frames.fits _ _ up
        rw [same]
        exact found

open ForLoop in
/- A `for` loop of an accepted program, with a body that is a statement and no declaration, and the tree that is run for
it: whenever one of them ends so does the other, in the same way and with the same effect. A frame that the tree makes
for a round never has a binding. -/
theorem forLoopsKeepMeaning {source : String} {program : Program} (parsed : Source.program source = .ok program)
    (accepted : program.resolve.2 = []) {address : Address} {place : Place} {line : Nat} {loop : ForLoop}
    (here : locate [program] address = some (place, .stmt (loop.tree line))) (plain : loop.body.declares = []) :
    (loop.resolve.after place.context).errors = [] ∧
    ∃ parts : ForLoop, phraseAt [program.resolve.1] address = some (.stmt (parts.tree line)) ∧
      (∀ m : Machine, m.Whole → ∀ outcome,
        (∀ limit n, ((evaluator limit).exec (parts.tree line)).finish m = some (outcome, n) →
          ∃ limit' n', ((loop.resolve.result place.context).run limit').finish m = some (outcome, n') ∧
            SameEffect m n n') ∧
        ∀ limit n', ((loop.resolve.result place.context).run limit).finish m = some (outcome, n') →
          ∃ limit' n, ((evaluator limit').exec (parts.tree line)).finish m = some (outcome, n) ∧ SameEffect m n n') ∧
      parts.increment.isSome = loop.increment.isSome ∧
      ∀ increment, parts.increment = some increment → ∀ (m : Machine), m.Whole → ∀ limit outcome n,
        ((evaluator limit).exec (.block [parts.body, .expression increment])).finish m = some (outcome, n) →
        ∀ limit' (requests : List Request) n', requests.foldlM (Machine.serve limit') n = some n' →
          n'.heap.frames.frame? m.heap.frames.nextId = some ⟨some m.environment, .empty⟩ := by
  have proper : ∀ p ∈ [program], Stmt.ProperAll p := List.forall_mem_singleton.mpr (sourceProper parsed)
  have located := locatedOf here
  have clean : ((loop.tree line).resolve.after place.context).errors = [] :=
    locatedAccepted (List.forall_mem_singleton.mpr accepted) located
  have properTree : (loop.tree line).Proper := locatedProper proper located
  obtain ⟨properBody, properNext⟩ := loopProper properTree
  obtain ⟨parts, same, stepped, after, like⟩ := loopResolved line properBody plain properNext (statementComplete located)
  refine ⟨by rw [after]; exact clean, parts, ?_, ?_, stepped, ?_⟩
  · have resolved : phraseAt [program.resolve.1] address = _ := phraseResolved [program] address
    rw [resolved, here]
    exact congrArg (fun s => some (Phrase.stmt s)) same
  · intro m whole outcome
    have tied : ∀ limit, Tied .same m.world m m ((evaluator limit).exec (parts.tree line))
        ((loop.resolve.result place.context).pacedRun line limit) Same :=
      fun limit => loopTied (whole.twins .same) whole.level line Layer.plainNil like limit
    constructor
    · intro limit n ends
      obtain ⟨outcome', n', v, finished, results, after⟩ := (tied limit).ends ends
      cases results.same
      exact ⟨limit, n', (pacedRunExtended limit).finish finished, sameEffect whole after⟩
    · intro limit n' ends
      obtain ⟨outcome', n, v, finished, results, after⟩ := (tied _).endsBefore ((runPaced limit).finish ends)
      cases results.same
      exact ⟨_, n, finished, sameEffect whole after⟩
  · intro increment given m whole limit outcome n ends limit' requests n' served
    exact roundFrameEmpty given (like.round [] Layer.plainNil) whole ends served

/- A closure of the last round sees the variable of the loop after the increment. -/
def relayText : String :=
  "var f; for (var go = true; go; go = false) \x7b f = fun () \x7b return go; \x7d; print f(); \x7d print f();"

def relayLoop : ForLoop :=
  ⟨some (.varDecl ⟨"go", 1⟩ (some (.literal (.bool true) 1))), some (.var ⟨"go", 1⟩ none),
    .block [.expression (.assign ⟨"f", 1⟩ (.lambda
        ⟨none, [], [.returnStmt ⟨"return", 1⟩ (some (.var ⟨"go", 1⟩ none))], 1⟩) none),
      .print (.call (.var ⟨"f", 1⟩ none) [] 1)],
    some (.assign ⟨"go", 1⟩ (.literal (.bool false) 1) none)⟩

def relayProgram : Program :=
  [.varDecl ⟨"f", 1⟩ none, relayLoop.tree 1, .print (.call (.var ⟨"f", 1⟩ none) [] 1)]

theorem relayParsed : Source.program relayText = .ok relayProgram := readAs (by decide +kernel)

def relayStart : Machine := (Machine.initial 0).defineGlobal "f" .nil

def relayTree : Stmt := (relayLoop.tree 1).resolve.result .outermost

def relayLater : Request := .interpret [.print (.call (.var ⟨"f", 1⟩ none) [] 1)]

theorem relayRan : (((evaluator 20).exec relayTree).finish relayStart).bind (fun final =>
    (final.2.serve 20 relayLater).map fun n => (final.1.toOption, final.2.output, n.output)) =
    some (some .normal, "true\n", "true\nfalse\n") := by decide +kernel

theorem relayKept : Source.program relayText = .ok relayProgram ∧
    ∃ limit n n', ((relayLoop.resolve.result .outermost).run limit).finish relayStart = some (.ok .normal, n) ∧
      n.output = "true\n" ∧ n.serve 20 relayLater = some n' ∧ n'.output = "true\nfalse\n" := by
  obtain ⟨_, parts, resolved, runs, _⟩ := forLoopsKeepMeaning relayParsed rfl
    (show locate [relayProgram] [.item 1, .program 0] = some (.outermost, .stmt (relayLoop.tree 1)) from rfl) rfl
  have same : parts.tree 1 = relayTree := (Phrase.stmt.inj (Option.some.inj resolved)).symm
  obtain ⟨⟨outcome, n⟩, ran, rest⟩ := Option.bind_eq_some_iff.mp relayRan
  obtain ⟨l, served, ends⟩ := Option.map_eq_some_iff.mp rest
  have whole : relayStart.Whole :=
    sessionWhole (Machine.initialWhole 0) (show [Request.define "f" .nil].foldlM (Machine.serve 0) _ = _ from rfl)
  rw [← same] at ran
  obtain ⟨limit, n', finished, effect⟩ := (runs relayStart whole outcome).1 20 n ran
  obtain ⟨result, outputs⟩ := Prod.mk.inj ends
  obtain ⟨output, last⟩ := Prod.mk.inj outputs
  have normal : outcome = .ok .normal := by
    cases outcome with
    | ok completion => exact congrArg Except.ok (Option.some.inj result)
    | error e => cases result
  have later := effect.later 20 [relayLater]
  have alone : ∀ n : Machine, [relayLater].foldlM (Machine.serve 20) n = n.serve 20 relayLater :=
    fun n => (List.foldlM_cons ..).trans (bind_pure _)
  rw [alone, alone, served] at later
  generalize also : n'.serve 20 relayLater = other at later
  cases later with
  | @some _ l' both =>
    rw [normal] at finished
    exact ⟨relayParsed, limit, n', l', finished, effect.output.trans output, also, both.1.trans last⟩

end Treewalk
