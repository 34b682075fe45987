import Treewalk.Proofs.Lexical.Resolution
import Treewalk.Proofs.Mirror.Sessions

/-! How far a return goes. A statement can only return where a return stands in it outside of every function, and
resolving accepts none at top level and none with a value in an initializer. So top-level statements are run one after
another up to the first error, and an initializer has nothing to return but nil. -/
namespace Treewalk

open Walk

/- A return in a statement, with what it returns. A return inside a function ends the call of that function. -/
inductive Stmt.Returns : Stmt → Option Expr → Prop where
  | here {keyword value} : Returns (.returnStmt keyword value) value
  | block {body s value} (member : s ∈ body) (inner : Returns s value) : Returns (.block body) value
  | thenBranch {condition thenBranch elseBranch value} (inner : Returns thenBranch value) :
      Returns (.ifElse condition thenBranch elseBranch) value
  | elseBranch {condition thenBranch elseBranch value} (inner : Returns elseBranch value) :
      Returns (.ifElse condition thenBranch (some elseBranch)) value
  | loop {condition body value} (inner : Returns body value) : Returns (.whileLoop condition body) value

def Yields (post : α → Prop) (action : Run α) : Prop := ∀ m a m', action m = .ok a m' → post a

namespace Yields
variable {post : β → Prop}

theorem pure {b : β} (h : post b) : Yields post (pure b) := by
  intro m a m' ends
  cases ends
  exact h

theorem bind {action : Run α} {next : α → Run β} {mid : α → Prop} (first : Yields mid action)
    (second : ∀ a, mid a → Yields post (next a)) : Yields post (action >>= next) := by
  intro m b m' ends
  change EStateM.bind action next m = _ at ends
  unfold EStateM.bind at ends
  cases run : action m with
  | ok a mid =>
    rw [run] at ends
    exact second a (first m a mid run) mid b m' ends
  | error halt mid =>
    rw [run] at ends
    cases ends

theorem after {action : Run α} {next : α → Run β} (second : ∀ a, Yields post (next a)) :
    Yields post (action >>= next) :=
  bind (fun _ _ _ _ => trivial) (fun a _ => second a)

theorem inNewFrame {parent : FrameId} {action : Run β} (inner : Yields post action) :
    Yields post (Run.inNewFrame parent action) := by
  apply after
  intro frame m b m' ends
  unfold Run.within at ends
  cases run : action { m with environment := frame } with
  | ok b' mid =>
    simp only [run] at ends
    cases ends
    exact inner _ _ _ run
  | error halt mid =>
    simp only [run] at ends
    cases ends

end Yields

def AccountedFor (body : List Stmt) (completion : Completion) : Prop :=
  ∀ v, completion = .returned v → ∃ s ∈ body, ∃ value, s.Returns value ∧ (value = none → v = .nil)

namespace AccountedFor

theorem normal (body : List Stmt) : AccountedFor body .normal := by
  intro v same
  cases same

theorem inside {body inner : List Stmt} {completion : Completion} (h : AccountedFor inner completion)
    (around : ∀ s ∈ inner, ∀ value, s.Returns value → ∃ outer ∈ body, outer.Returns value) :
    AccountedFor body completion := by
  intro v same
  obtain ⟨s, member, value, returns, plain⟩ := h v same
  obtain ⟨outer, member', returns'⟩ := around s member value returns
  exact ⟨outer, member', value, returns', plain⟩

theorem alone {s s' : Stmt} {completion : Completion} (h : AccountedFor [s] completion)
    (around : ∀ value, s.Returns value → s'.Returns value) : AccountedFor [s'] completion := by
  apply h.inside
  intro inner member value returns
  cases List.mem_singleton.mp member
  exact ⟨s', List.mem_singleton_self s', around value returns⟩

end AccountedFor

section Runs
variable {r : Evaluator} (h : ∀ s, Yields (AccountedFor [s]) (r.exec s))
include h

theorem execAllAccounted (body : List Stmt) : Yields (AccountedFor body) (r.execAll body) := by
  induction body with
  | nil => exact Yields.pure (.normal [])
  | cons s rest ih =>
    refine Yields.bind (h s) ?_
    intro completion accounted
    cases completion with
    | normal =>
      intro m completion' m' ends
      exact (ih m completion' m' ends).inside fun s member value returns => ⟨s, List.mem_cons_of_mem _ member, returns⟩
    | returned v =>
      apply Yields.pure
      apply accounted.inside
      intro s' member value returns
      cases List.mem_singleton.mp member
      exact ⟨s, List.mem_cons_self, returns⟩

theorem execRuleAccounted (s : Stmt) : Yields (AccountedFor [s]) (r.execRule s) := by
  cases s with
  | block body =>
    apply Yields.after
    intro environment
    apply Yields.inNewFrame
    intro m completion m' ends
    apply (execAllAccounted h body m completion m' ends).inside
    intro s member value returns
    exact ⟨_, List.mem_singleton_self _, .block member returns⟩
  | ifElse condition thenBranch elseBranch =>
    apply Yields.after
    intro test
    split
    · exact fun m completion m' ends => (h thenBranch m completion m' ends).alone fun _ => .thenBranch
    · cases elseBranch with
      | none => exact Yields.pure (.normal _)
      | some elseBranch =>
        exact fun m completion m' ends => (h elseBranch m completion m' ends).alone fun _ => .elseBranch
  | whileLoop condition body =>
    apply Yields.after
    intro test
    split
    · refine Yields.bind (h body) ?_
      intro completion accounted
      cases completion with
      | normal => exact h (.whileLoop condition body)
      | returned v => exact Yields.pure (accounted.alone fun _ => .loop)
    · exact Yields.pure (.normal _)
  | returnStmt keyword value =>
    cases value with
    | none =>
      apply Yields.pure
      intro v same
      cases same
      exact ⟨_, List.mem_singleton_self _, none, .here, fun _ => rfl⟩
    | some e =>
      apply Yields.after
      intro result
      apply Yields.pure
      intro v _
      refine ⟨_, List.mem_singleton_self _, some e, .here, ?_⟩
      intro missing
      cases missing
  | expression e => exact .after fun _ => .after fun _ => .pure (.normal _)
  | print e => exact .after fun _ => .after fun _ => .pure (.normal _)
  | varDecl name initializer => exact .after fun _ => .after fun _ => .pure (.normal _)
  | funDecl decl => exact .after fun _ => .after fun _ => .after fun _ => .pure (.normal _)
  | classDecl decl => exact .after fun _ => .pure (.normal _)

end Runs

theorem returnsAccounted (limit : Nat) (s : Stmt) : Yields (AccountedFor [s]) ((evaluator limit).exec s) := by
  induction limit generalizing s with
  | zero =>
    intro m completion m' ends
    cases ends
  | succ limit ih => exact execRuleAccounted ih s

def FunctionContext.Permits : FunctionContext → Option Expr → Prop
  | .none, _ => False
  | .initializer, value => value = Option.none
  | _, _ => True

theorem permitsReturn {kind : FunctionContext} (inFunction : kind ≠ .none) : kind.Permits none := by
  cases kind with
  | none => exact absurd rfl inFunction
  | initializer => rfl
  | _ => trivial

theorem permitsValue {kind : FunctionContext} (inFunction : kind ≠ .none) (plain : kind ≠ .initializer)
    (value : Option Expr) : kind.Permits value := by
  cases kind with
  | none => exact absurd rfl inFunction
  | initializer => exact absurd rfl plain
  | _ => trivial

theorem checkedReturn {keyword : Ident} {c : ScopeContext} (clean : ((checkReturn keyword).after c).errors = []) :
    c.function ≠ .none := by
  intro top
  rw [returnErrors, top] at clean
  exact List.cons_ne_nil _ _ (List.append_eq_nil_iff.mp clean).2

theorem checkedReturnValue {keyword : Ident} {c : ScopeContext}
    (clean : ((checkReturnValue keyword).after c).errors = []) : c.function ≠ .initializer := by
  intro initializer
  rw [returnValueErrors, initializer] at clean
  exact List.cons_ne_nil _ _ (List.append_eq_nil_iff.mp clean).2

theorem Walk.Moves.clean {w : Walk α} {names : List String} (moves : w.Moves names) {c : ScopeContext}
    (clean : (w.after c).errors = []) : c.errors = [] := by
  have kept := (moves c).errors
  rw [clean] at kept
  exact List.prefix_nil.mp kept

mutual

theorem Stmt.returnsPermitted : ∀ (s : Stmt) (c : ScopeContext), (s.resolve.after c).errors = [] →
    ∀ value, (s.resolve.result c).Returns value → c.function.Permits value
  | .expression _, _, _, _, returns => by cases returns
  | .print _, _, _, _, returns => by cases returns
  | .varDecl _ none, _, _, _, returns => by cases returns
  | .varDecl _ (some _), _, _, _, returns => by cases returns
  | .funDecl ⟨none, _, _, _⟩, _, _, _, returns => by cases returns
  | .funDecl ⟨some _, _, _, _⟩, _, _, _, returns => by cases returns
  | .classDecl _, _, _, _, returns => by cases returns
  | .block body, c, clean, value, returns => by
    cases returns with
    | block member inner =>
      exact Stmt.returnsPermittedAll body { c with scopes := .empty :: c.scopes } clean _ member value inner
  | .ifElse condition thenBranch none, c, clean, value, returns => by
    cases returns with
    | thenBranch inner =>
      have permitted := thenBranch.returnsPermitted (condition.resolve.after c) clean value inner
      rwa [(condition.resolveSteady c).function] at permitted
  | .ifElse condition thenBranch (some elseBranch), c, clean, value, returns => by
    have tested := (condition.resolveSteady c).function
    cases returns with
    | thenBranch inner =>
      have permitted := thenBranch.returnsPermitted (condition.resolve.after c)
        (elseBranch.resolveMoves.clean clean) value inner
      rwa [tested] at permitted
    | elseBranch inner =>
      have permitted := elseBranch.returnsPermitted (thenBranch.resolve.after (condition.resolve.after c))
        clean value inner
      rwa [(thenBranch.resolveMoves _).function, tested] at permitted
  | .whileLoop condition body, c, clean, value, returns => by
    cases returns with
    | loop inner =>
      have permitted := body.returnsPermitted (condition.resolve.after c) clean value inner
      rwa [(condition.resolveSteady c).function] at permitted
  | .returnStmt keyword none, c, clean, value, returns => by
    cases returns with
    | here => exact permitsReturn (checkedReturn clean)
  | .returnStmt keyword (some result), c, clean, value, returns => by
    cases returns with
    | here =>
      have both : ((checkReturnValue keyword).after ((checkReturn keyword).after c)).errors = [] :=
        result.resolveSteady.clean clean
      have plain := checkedReturnValue both
      rw [(steadyCheckReturn keyword c).function] at plain
      exact permitsValue (checkedReturn ((steadyCheckReturnValue keyword).clean both)) plain _

theorem Stmt.returnsPermittedAll : ∀ (body : List Stmt) (c : ScopeContext),
    ((Stmt.resolveList body).after c).errors = [] → ∀ s ∈ (Stmt.resolveList body).result c,
    ∀ value, s.Returns value → c.function.Permits value
  | [], _, _, _, member, _, _ => absurd member List.not_mem_nil
  | first :: rest, c, clean, s, member, value, returns => by
    have later : ((Stmt.resolveList rest).after (first.resolve.after c)).errors = [] := clean
    cases member with
    | head => exact first.returnsPermitted c ((Stmt.resolveListMoves rest).clean later) value returns
    | tail _ member =>
      have permitted := Stmt.returnsPermittedAll rest (first.resolve.after c) later s member value returns
      rwa [(first.resolveMoves c).function] at permitted

end

theorem FunctionDecl.returnsPermitted (kind : FunctionContext) (decl : FunctionDecl) (c : ScopeContext)
    (clean : ((decl.resolve kind).after c).errors = []) :
    ∀ s ∈ ((decl.resolve kind).result c).body, ∀ value, s.Returns value → kind.Permits value := by
  obtain ⟨name, params, body, line⟩ := decl
  intro s member value returns
  let inside : ScopeContext := (declareAll params).after { c with function := kind, scopes := .empty :: c.scopes }
  have permitted : inside.function.Permits value := Stmt.returnsPermittedAll body _ clean s member value returns
  rwa [(movesDeclareAll params _).function] at permitted

inductive RunsThrough (r : Evaluator) : Program → Machine → Machine → Prop where
  | nil {m} : RunsThrough r [] m m
  | cons {s rest m m' m''} (first : r.exec s m = .ok .normal m') (others : RunsThrough r rest m' m'') :
      RunsThrough r (s :: rest) m m''

def FailsAt (r : Evaluator) (program : Program) (m : Machine) (halt : Halt) (m' : Machine) : Prop :=
  ∃ before s after between, program = before ++ s :: after ∧ RunsThrough r before m between ∧
    r.exec s between = .error halt m'

section Programs
variable {r : Evaluator} {s : Stmt} {rest : Program} {m m' between : Machine} {halt : Halt}

theorem programNext {completion : Completion} (first : r.exec s m = .ok completion between) :
    r.execProgram (s :: rest) m = r.execProgram rest between := by
  change EStateM.bind (r.exec s) (fun _ => r.execProgram rest) m = r.execProgram rest between
  unfold EStateM.bind
  rw [first]

theorem programStops (failed : r.exec s m = .error halt between) :
    r.execProgram (s :: rest) m = .error halt between := by
  change EStateM.bind (r.exec s) (fun _ => r.execProgram rest) m = .error halt between
  unfold EStateM.bind
  rw [failed]

theorem runsNext (first : r.exec s m = .ok .normal between) :
    RunsThrough r (s :: rest) m m' ↔ RunsThrough r rest between m' := by
  constructor
  · intro through
    cases through with
    | cons head others =>
      cases first.symm.trans head
      exact others
  · exact .cons first

theorem failsNext (first : r.exec s m = .ok .normal between) :
    FailsAt r (s :: rest) m halt m' ↔ FailsAt r rest between halt m' := by
  constructor
  · intro fails
    obtain ⟨before, failing, after, reached, same, through, failed⟩ := fails
    cases through with
    | nil =>
      cases same
      cases first.symm.trans failed
    | cons head others =>
      cases same
      cases first.symm.trans head
      exact ⟨_, failing, after, reached, rfl, others, failed⟩
  · intro fails
    obtain ⟨before, failing, after, reached, rfl, through, failed⟩ := fails
    exact ⟨s :: before, failing, after, reached, rfl, .cons first through, failed⟩

theorem runsNowhere (failed : r.exec s m = .error halt between) : ¬ RunsThrough r (s :: rest) m m' := by
  intro through
  cases through with
  | cons head others => cases failed.symm.trans head

theorem failsFirst {halt' : Halt} (failed : r.exec s m = .error halt between) :
    FailsAt r (s :: rest) m halt' m' ↔ halt' = halt ∧ m' = between := by
  constructor
  · intro fails
    obtain ⟨before, failing, after, reached, same, through, failed'⟩ := fails
    cases through with
    | nil =>
      cases same
      cases failed.symm.trans failed'
      exact ⟨rfl, rfl⟩
    | cons head others =>
      cases same
      cases failed.symm.trans head
  · rintro ⟨rfl, rfl⟩
    exact ⟨[], s, rest, m, rfl, .nil, failed⟩

end Programs

theorem programRuns {r : Evaluator} {program : Program} (normal : ∀ s ∈ program, Yields (· = .normal) (r.exec s))
    (m : Machine) :
    (∀ m', r.execProgram program m = .ok () m' ↔ RunsThrough r program m m') ∧
    ∀ halt m', r.execProgram program m = .error halt m' ↔ FailsAt r program m halt m' := by
  induction program generalizing m with
  | nil =>
    refine ⟨fun m' => ⟨fun ends => ?_, fun through => ?_⟩, fun halt m' => ⟨fun ends => ?_, fun fails => ?_⟩⟩
    · cases ends
      exact .nil
    · cases through
      rfl
    · cases ends
    · obtain ⟨before, s, after, _, same, _⟩ := fails
      cases before <;> cases same
  | cons s rest ih =>
    cases run : r.exec s m with
    | ok completion between =>
      obtain rfl := normal s List.mem_cons_self m completion between run
      obtain ⟨ends, fails⟩ := ih (fun s member => normal s (List.mem_cons_of_mem _ member)) between
      rw [programNext run]
      exact ⟨fun m' => (ends m').trans (runsNext run).symm, fun halt m' => (fails halt m').trans (failsNext run).symm⟩
    | error halt stopped =>
      rw [programStops run]
      refine ⟨fun m' => ⟨fun ends => ?_, fun through => absurd through (runsNowhere run)⟩, fun halt' m' => ?_⟩
      · cases ends
      · rw [failsFirst run]
        constructor
        · intro ends
          cases ends
          exact ⟨rfl, rfl⟩
        · rintro ⟨rfl, rfl⟩
          rfl

def FunctionDecl.NoValue (decl : FunctionDecl) : Prop :=
  ∀ limit, Yields (fun completion => completion = .normal ∨ completion = .returned .nil)
    ((evaluator limit).execAll decl.body)

theorem initializerNoValue {decl : FunctionDecl} {c : ScopeContext}
    (clean : ((decl.resolve .initializer).after c).errors = []) : ((decl.resolve .initializer).result c).NoValue := by
  intro limit m completion m' ends
  have accounted := execAllAccounted (returnsAccounted limit) _ m completion m' ends
  cases completion with
  | normal => exact .inl rfl
  | returned v =>
    obtain ⟨s, member, value, returns, plain⟩ := accounted v rfl
    have valueless : value = none := FunctionDecl.returnsPermitted .initializer decl c clean s member value returns
    rw [plain valueless]
    exact .inr rfl

theorem topLevelNormal {program : Program} (accepted : program.resolve.2 = []) (limit : Nat) :
    ∀ s ∈ program.resolve.1, Yields (· = .normal) ((evaluator limit).exec s) := by
  intro s member m completion m' ends
  cases completion with
  | normal => rfl
  | returned v =>
    obtain ⟨s', single, value, returns, _⟩ := returnsAccounted limit s m _ m' ends v rfl
    cases List.mem_singleton.mp single
    exact (Stmt.returnsPermittedAll program .outermost accepted s member value returns).elim

def sessionEnd (limit : Nat) (programs : List Program) (m : Machine) : Observed :=
  match watchSession limit 0 programs ⟨m, .none⟩ with
  | .ok _ s => s
  | .error _ s => s

theorem methodInitializer {programs : List Program} {index : Nat} {outer : Address} {place : Place}
    {kind : FunctionContext} {decl : FunctionDecl}
    (located : Located programs (.method index :: outer) place (.function kind decl))
    (named : decl.isInitializer = true) : kind = .initializer := by
  cases located with
  | part around inside =>
    cases partInside inside with
    | method => exact if_pos named

namespace Setting
variable {g : Setting}

theorem endAgrees {programs : List Program} {m : Machine} (limit : Nat) (idle : m.Idle)
    (proper : ∀ p ∈ programs, Stmt.ProperAll p) (accepted : ∀ p ∈ programs, p.resolve.2 = []) :
    (start programs m proper accepted).Agrees (sessionEnd limit programs m) := by
  have same : sessionEnd limit programs m = observedAfter (watchSession limit 0 programs ⟨m, .none⟩) := by
    unfold sessionEnd
    cases watchSession limit 0 programs ⟨m, .none⟩ <;> rfl
  rw [same]
  exact sessionAgrees limit idle proper accepted

theorem methodNoValue {index : Nat} {outer : Address} {place : Place} {kind : FunctionContext} {decl made : FunctionDecl}
    (located : Located g.programs (.method index :: outer) place (.function kind decl))
    (same : made = (decl.resolve kind).result place.context) (named : made.isInitializer = true) : made.NoValue := by
  have clean := locatedAccepted g.accepted located
  have named' : decl.isInitializer = true := by
    rw [same] at named
    unfold FunctionDecl.isInitializer FunctionDecl.label at named ⊢
    rwa [nameKept] at named
  obtain rfl := methodInitializer located named'
  rw [same]
  exact initializerNoValue clean

end Setting

/- No statement at top level returns, so that all are run up to the first error; and however a function made from a
method `init` of instances is run, by a call or for a new instance, its body returns nothing but nil. -/
theorem returnsStayInCalls {programs : List Program} {m : Machine} (limit : Nat) (idle : m.Idle)
    (parsed : ∀ p ∈ programs, ∃ source, Source.program source = .ok p)
    (accepted : ∀ p ∈ programs, p.resolve.2 = []) :
    (∀ p ∈ programs, (∀ s ∈ p.resolve.1, Yields (· = .normal) ((evaluator limit).exec s)) ∧ ∀ m,
      (∀ m', (evaluator limit).execProgram p.resolve.1 m = .ok () m' ↔
        RunsThrough (evaluator limit) p.resolve.1 m m') ∧
      ∀ halt m', (evaluator limit).execProgram p.resolve.1 m = .error halt m' ↔
        FailsAt (evaluator limit) p.resolve.1 m halt m') ∧
    (∀ id f index outer, (sessionEnd limit programs m).machine.heap.callable? id = some (.function f) →
      (sessionEnd limit programs m).shadow.functions id = some (.method index :: outer) →
      f.decl.isInitializer = true → f.decl.NoValue) ∧
    ∀ id c name f, (sessionEnd limit programs m).machine.heap.class? id = some c → c.methods.find? name = some f →
      ((sessionEnd limit programs m).shadow.methods id).contains name = true → f.decl.isInitializer = true →
      f.decl.NoValue := by
  have agrees := Setting.endAgrees limit idle (parsedProper parsed) accepted
  refine ⟨?_, ?_, ?_⟩
  · intro p member
    have normal := topLevelNormal (accepted p member) limit
    exact ⟨normal, programRuns normal⟩
  · intro id f index outer found origin named
    have made := agrees.functions id f found
    rw [origin] at made
    obtain ⟨place, kind, decl, located, same, _⟩ := made
    exact Setting.methodNoValue located same named
  · intro id c name f found method ours named
    obtain ⟨address, origin⟩ := Option.isSome_iff_exists.mp ours
    have made := (agrees.classes id c found).methods name f method
    rw [origin] at made
    obtain ⟨index, outer, place, kind, decl, _, _, rfl, located, same, _⟩ := made
    exact Setting.methodNoValue located same named

/- An initializer that returns out of a loop, with a function in it that returns a value of its own, and is called once
more when the instance is there. -/
def earlyText : String :=
  "class A \x7b init() \x7b var f = fun () \x7b return true; \x7d; while (true) \x7b return; \x7d \x7d \x7d A().init();"

def earlyProgram : Program :=
  [.classDecl ⟨⟨"A", 1⟩, none,
    [⟨some ⟨"init", 1⟩, [], [.varDecl ⟨"f", 1⟩ (some (.lambda
        ⟨none, [], [.returnStmt ⟨"return", 1⟩ (some (.literal (.bool true) 1))], 1⟩)),
      .whileLoop (.literal (.bool true) 1) (.block [.returnStmt ⟨"return", 1⟩ none])], 1⟩], []⟩,
    .expression (.call (.get (.call (.var ⟨"A", 1⟩ none) [] 1) ⟨"init", 1⟩) [] 1)]

theorem earlyParsed : Source.program earlyText = .ok earlyProgram := readAs (by decide +kernel)

def earlyDecl : FunctionDecl :=
  ⟨some ⟨"init", 1⟩, [], [.varDecl ⟨"f", 1⟩ (some (.lambda
      ⟨none, [], [.returnStmt ⟨"return", 1⟩ (some (.literal (.bool true) 1))], 1⟩)),
    .whileLoop (.literal (.bool true) 1) (.block [.returnStmt ⟨"return", 1⟩ none])], 1⟩

deriving instance DecidableEq for Function

def Callable.function? : Callable → Option Function
  | .function f => some f
  | .native _ => none

theorem Callable.ofFunction {c : Callable} {f : Function} (same : c.function? = some f) : c = .function f := by
  cases c with
  | function g => exact congrArg Callable.function (Option.some.inj same)
  | native n => cases same

theorem earlyMade : (sessionEnd 12 [earlyProgram] (.initial 0)).machine.heap.callable? ⟨2⟩ =
    some (.function ⟨earlyDecl, ⟨6⟩, true⟩) := by
  have made : ((sessionEnd 12 [earlyProgram] (.initial 0)).machine.heap.callable? ⟨2⟩).bind Callable.function? =
      some ⟨earlyDecl, ⟨6⟩, true⟩ := by decide +kernel
  obtain ⟨c, found, same⟩ := Option.bind_eq_some_iff.mp made
  rw [found, Callable.ofFunction same]

theorem earlyContained : (Machine.initial 0).Idle ∧ Source.program earlyText = .ok earlyProgram ∧
    earlyProgram.resolve.2 = [] ∧
    (∃ m', RunsThrough (evaluator 12) earlyProgram.resolve.1 (.initial 0) m') ∧
    (sessionEnd 12 [earlyProgram] (.initial 0)).machine.heap.callable? ⟨2⟩ =
      some (.function ⟨earlyDecl, ⟨6⟩, true⟩) ∧
    (sessionEnd 12 [earlyProgram] (.initial 0)).shadow.functions ⟨2⟩ = some [.method 0, .item 0, .program 0] ∧
    earlyDecl.isInitializer = true ∧ earlyDecl.NoValue := by
  have accepted : earlyProgram.resolve.2 = [] := by decide
  have origin : (sessionEnd 12 [earlyProgram] (.initial 0)).shadow.functions ⟨2⟩ =
      some [.method 0, .item 0, .program 0] := by decide +kernel
  have ends : (((evaluator 12).execProgram earlyProgram.resolve.1).finish (.initial 0)).any (·.1.isOk) = true := by
    decide +kernel
  obtain ⟨top, made, _⟩ := returnsStayInCalls 12 (Machine.initialIdle 0)
    (List.forall_mem_singleton.mpr ⟨earlyText, earlyParsed⟩) (List.forall_mem_singleton.mpr accepted)
  refine ⟨Machine.initialIdle 0, earlyParsed, accepted, ?_, earlyMade, origin, rfl, ?_⟩
  · unfold Run.finish at ends
    cases run : (evaluator 12).execProgram earlyProgram.resolve.1 (.initial 0) with
    | ok u m' => exact ⟨m', (((top _ (List.mem_singleton_self _)).2 _).1 m').mp run⟩
    | error halt m' =>
      rw [run] at ends
      cases halt <;> cases ends
  · exact made ⟨2⟩ _ 0 _ earlyMade origin rfl

end Treewalk
