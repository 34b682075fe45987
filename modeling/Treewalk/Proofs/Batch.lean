import Treewalk.Proofs.Limits
import Treewalk.Proofs.Reporting
import Treewalk.Proofs.Scoping

/-! Programs one after another. The walk of scope resolution does not look at the errors that it has found, and is
back where it was after each statement at top level; so two programs are resolved together as they are apart. To run
them together is to run one and then, if that ended well, the other. -/
namespace Treewalk

def ScopeContext.preceded (earlier : List ScopeError) (c : ScopeContext) : ScopeContext :=
  { c with errors := earlier ++ c.errors }

namespace Walk

def Oblivious (w : Walk α) : Prop :=
  ∀ earlier c, w (c.preceded earlier) = (w.result c, (w.after c).preceded earlier)

theorem obliviousPure (a : α) : Oblivious (pure a : Walk α) := fun _ _ => rfl

theorem Oblivious.bind {w : Walk α} {k : α → Walk β} (first : w.Oblivious) (second : ∀ a, (k a).Oblivious) :
    (w >>= k).Oblivious := by
  intro earlier c
  change k (w (c.preceded earlier)).1 (w (c.preceded earlier)).2 = _
  rw [first earlier c]
  exact second (w.result c) earlier (w.after c)

theorem Oblivious.pure {w : Walk α} {f : α → β} (first : w.Oblivious) : Oblivious (do return f (← w)) :=
  first.bind fun a => obliviousPure (f a)

theorem obliviousGet {k : ScopeContext → Walk α} (h : ∀ c, (k c).Oblivious)
    (same : ∀ earlier c, k (c.preceded earlier) = k c) : Oblivious (get >>= k) := by
  intro earlier c
  change k (c.preceded earlier) (c.preceded earlier) = _
  rw [same earlier c]
  exact h c earlier c

theorem obliviousModify {f : ScopeContext → ScopeContext}
    (same : ∀ earlier c, f (c.preceded earlier) = (f c).preceded earlier) : Oblivious (modify f) :=
  fun earlier c => congrArg (Prod.mk ()) (same earlier c)

theorem obliviousReport (name : Ident) (fault : ScopeFault) : Oblivious (report name fault) :=
  obliviousModify fun earlier c => by simp [ScopeContext.preceded]

theorem obliviousWhen {condition : Prop} [Decidable condition] {w : Walk Unit} (h : w.Oblivious) :
    Oblivious (if condition then w else pure ()) := by
  split
  · exact h
  · exact obliviousPure ()

theorem obliviousSlot (name : Ident) (old : Depth) : Oblivious (slot name old) := by
  apply obliviousGet
  · intro c
    cases c.scopes.findIdx? (·.contains name.name) with
    | none => exact obliviousPure old
    | some depth => exact obliviousPure (some depth)
  · exact fun _ _ => rfl

theorem obliviousCheckInitialized (name : Ident) : Oblivious (checkInitialized name) := by
  apply obliviousGet
  · intro c
    cases c.scopes with
    | nil => exact obliviousPure ()
    | cons scope outer => exact obliviousWhen (obliviousReport name .readInOwnInitializer)
  · exact fun _ _ => rfl

theorem obliviousThisSlot (keyword : Ident) (old : Depth) : Oblivious (thisSlot keyword old) := by
  apply obliviousGet
  · intro c
    split
    · exact (obliviousReport keyword .thisOutsideClass).bind fun _ => obliviousPure old
    · split
      · exact (obliviousReport keyword .thisInClassMethod).bind fun _ => obliviousPure old
      · exact obliviousSlot keyword old
  · exact fun _ _ => rfl

theorem obliviousCheckReturn (keyword : Ident) : Oblivious (checkReturn keyword) :=
  obliviousGet (fun _ => obliviousWhen (obliviousReport keyword .returnAtTopLevel)) fun _ _ => rfl

theorem obliviousCheckReturnValue (keyword : Ident) : Oblivious (checkReturnValue keyword) :=
  obliviousGet (fun _ => obliviousWhen (obliviousReport keyword .valueFromInitializer)) fun _ _ => rfl

theorem obliviousCheckSuperclass (name : Ident) (superclass : Expr) : Oblivious (checkSuperclass name superclass) := by
  unfold checkSuperclass
  split
  · exact obliviousWhen (obliviousReport _ .inheritsFromItself)
  · exact obliviousPure ()

theorem obliviousDefine (name : Ident) : Oblivious (define name) := by
  apply obliviousModify
  rintro earlier ⟨scopes, kind, within, errors⟩
  cases scopes <;> rfl

theorem obliviousDeclare (name : Ident) : Oblivious (declare name) := by
  intro earlier c
  obtain ⟨scopes, kind, within, errors⟩ := c
  change ((), (declare name).after _) = ((), ((declare name).after _).preceded earlier)
  rw [declareAfter, declareAfter]
  cases scopes with
  | nil => rfl
  | cons scope outer =>
    simp only [ScopeContext.preceded]
    split <;> simp

theorem obliviousDeclaredThen (name : Ident) {w : Walk α} (h : w.Oblivious) :
    Oblivious (do declare name; define name; w) :=
  (obliviousDeclare name).bind fun _ => (obliviousDefine name).bind fun _ => h

theorem obliviousDeclareAll (names : List Ident) : Oblivious (declareAll names) := by
  induction names with
  | nil => exact obliviousPure ()
  | cons name rest ih => exact obliviousDeclaredThen name ih

theorem obliviousInScope {w : Walk α} (scope : Scope) (h : w.Oblivious) : Oblivious (inScope scope w) :=
  (obliviousModify fun _ _ => rfl).bind fun _ => h.bind fun a =>
    (obliviousModify fun _ _ => rfl).bind fun _ => obliviousPure a

theorem obliviousInFunction {w : Walk α} (kind : FunctionContext) (h : w.Oblivious) : Oblivious (inFunction kind w) := by
  apply obliviousGet
  · intro c
    exact (obliviousModify fun _ _ => rfl).bind fun _ => h.bind fun a =>
      (obliviousModify fun _ _ => rfl).bind fun _ => obliviousPure a
  · exact fun _ _ => rfl

theorem obliviousInClass {w : Walk α} (h : w.Oblivious) : Oblivious (inClass w) := by
  apply obliviousGet
  · intro c
    exact (obliviousModify fun _ _ => rfl).bind fun _ => h.bind fun a =>
      (obliviousModify fun _ _ => rfl).bind fun _ => obliviousPure a
  · exact fun _ _ => rfl

end Walk

open Walk

mutual

theorem Expr.resolveOblivious : ∀ e : Expr, e.resolve.Oblivious
  | .literal _ _ => obliviousPure _
  | .unary _ right _ => right.resolveOblivious.pure
  | .binary left _ right _ => left.resolveOblivious.bind fun _ => right.resolveOblivious.pure
  | .logical left _ right _ => left.resolveOblivious.bind fun _ => right.resolveOblivious.pure
  | .ternary condition thenBranch elseBranch _ =>
    condition.resolveOblivious.bind fun _ => thenBranch.resolveOblivious.bind fun _ =>
      elseBranch.resolveOblivious.pure
  | .grouping inner => inner.resolveOblivious.pure
  | .var name depth => (obliviousCheckInitialized name).bind fun _ => (obliviousSlot name depth).pure
  | .assign name value depth => value.resolveOblivious.bind fun _ => (obliviousSlot name depth).pure
  | .call callee arguments _ => callee.resolveOblivious.bind fun _ => (Expr.resolveListOblivious arguments).pure
  | .get object _ => object.resolveOblivious.pure
  | .set object _ value => object.resolveOblivious.bind fun _ => value.resolveOblivious.pure
  | .this keyword depth => (obliviousThisSlot keyword depth).pure
  | .lambda decl => (decl.resolveOblivious .lambda).pure

theorem Expr.resolveListOblivious : ∀ es : List Expr, (Expr.resolveList es).Oblivious
  | [] => obliviousPure []
  | e :: rest => e.resolveOblivious.bind fun _ => (Expr.resolveListOblivious rest).pure

theorem Stmt.resolveOblivious : ∀ s : Stmt, s.resolve.Oblivious
  | .expression value => value.resolveOblivious.pure
  | .print value => value.resolveOblivious.pure
  | .varDecl name none => obliviousDeclaredThen name (obliviousPure _)
  | .varDecl name (some initializer) =>
    (obliviousDeclare name).bind fun _ => initializer.resolveOblivious.bind fun _ => (obliviousDefine name).pure
  | .block body => (obliviousInScope .empty (Stmt.resolveListOblivious body)).pure
  | .ifElse condition thenBranch none =>
    condition.resolveOblivious.bind fun _ => thenBranch.resolveOblivious.pure
  | .ifElse condition thenBranch (some elseBranch) =>
    condition.resolveOblivious.bind fun _ => thenBranch.resolveOblivious.bind fun _ =>
      elseBranch.resolveOblivious.pure
  | .whileLoop condition body => condition.resolveOblivious.bind fun _ => body.resolveOblivious.pure
  | .funDecl ⟨none, params, body, line⟩ =>
    (FunctionDecl.resolveOblivious .function ⟨none, params, body, line⟩).pure
  | .funDecl ⟨some name, params, body, line⟩ =>
    obliviousDeclaredThen name (FunctionDecl.resolveOblivious .function ⟨some name, params, body, line⟩).pure
  | .classDecl decl => decl.resolveOblivious.pure
  | .returnStmt keyword none => (obliviousCheckReturn keyword).pure
  | .returnStmt keyword (some value) =>
    (obliviousCheckReturn keyword).bind fun _ => (obliviousCheckReturnValue keyword).bind fun _ =>
      value.resolveOblivious.pure

theorem Stmt.resolveListOblivious : ∀ body : List Stmt, (Stmt.resolveList body).Oblivious
  | [] => obliviousPure []
  | s :: rest => s.resolveOblivious.bind fun _ => (Stmt.resolveListOblivious rest).pure

theorem FunctionDecl.resolveOblivious (kind : FunctionContext) : ∀ decl : FunctionDecl, (decl.resolve kind).Oblivious
  | ⟨_, params, body, _⟩ =>
    obliviousInFunction kind <| obliviousInScope .empty <| (obliviousDeclareAll params).bind fun _ =>
      (obliviousInScope .empty (Stmt.resolveListOblivious body)).pure

theorem FunctionDecl.resolveMethodsOblivious :
    ∀ decls : List FunctionDecl, (FunctionDecl.resolveMethods decls).Oblivious
  | [] => obliviousPure []
  | f :: rest => (f.resolveOblivious f.methodContext).bind fun _ => (FunctionDecl.resolveMethodsOblivious rest).pure

theorem FunctionDecl.resolveClassMethodsOblivious :
    ∀ decls : List FunctionDecl, (FunctionDecl.resolveClassMethods decls).Oblivious
  | [] => obliviousPure []
  | f :: rest =>
    (f.resolveOblivious .classMethod).bind fun _ => (FunctionDecl.resolveClassMethodsOblivious rest).pure

theorem ClassDecl.resolveSuperclassOblivious (name : Ident) :
    ∀ superclass : Option Expr, (ClassDecl.resolveSuperclass name superclass).Oblivious
  | none => obliviousPure none
  | some superclass => (obliviousCheckSuperclass name superclass).bind fun _ => superclass.resolveOblivious.pure

theorem ClassDecl.resolveOblivious : ∀ decl : ClassDecl, decl.resolve.Oblivious
  | ⟨name, superclass, methods, classMethods⟩ =>
    obliviousInClass <| obliviousDeclaredThen name <|
      (ClassDecl.resolveSuperclassOblivious name superclass).bind fun _ =>
        obliviousInScope .ofThis <| (FunctionDecl.resolveMethodsOblivious methods).bind fun _ =>
          (FunctionDecl.resolveClassMethodsOblivious classMethods).pure

end

theorem resolveListAppend (first second : List Stmt) (c : ScopeContext) :
    Stmt.resolveList (first ++ second) c =
      ((Stmt.resolveList first c).1 ++ (Stmt.resolveList second (Stmt.resolveList first c).2).1,
        (Stmt.resolveList second (Stmt.resolveList first c).2).2) := by
  induction first generalizing c with
  | nil => rfl
  | cons s rest ih =>
    change (s.resolve.result c :: (Stmt.resolveList (rest ++ second) (s.resolve.after c)).1,
      (Stmt.resolveList (rest ++ second) (s.resolve.after c)).2) = _
    rw [ih]
    rfl

theorem resolveListOutermost (program : Program) :
    (Stmt.resolveList program .outermost).2 = ScopeContext.preceded program.resolve.2 .outermost := by
  have moved := Stmt.resolveListMoves program .outermost
  have same : ∀ c : ScopeContext, c.scopes = [] → c.function = .none → c.inClass = false →
      c = ScopeContext.preceded c.errors .outermost := by
    rintro ⟨scopes, kind, within, errors⟩ rfl rfl rfl
    simp [ScopeContext.preceded, ScopeContext.outermost]
  exact same _ moved.scopes moved.function moved.inClass

theorem resolveAppend (first second : Program) : (first ++ second).resolve =
    (first.resolve.1 ++ second.resolve.1, first.resolve.2 ++ second.resolve.2) := by
  have later := Stmt.resolveListOblivious second first.resolve.2 .outermost
  have both := resolveListAppend first second .outermost
  rw [resolveListOutermost, later] at both
  have whole : (first ++ second).resolve = ((Stmt.resolveList (first ++ second) .outermost).1,
      (Stmt.resolveList (first ++ second) .outermost).2.errors) := rfl
  rw [whole, both]
  rfl

theorem execProgramAppend (r : Evaluator) (first second : Program) :
    r.execProgram (first ++ second) = r.execProgram first >>= fun _ => r.execProgram second := by
  induction first with
  | nil => rfl
  | cons s rest ih =>
    change (r.exec s >>= fun _ => r.execProgram (rest ++ second)) = _
    rw [ih]
    simp only [Evaluator.execProgram, bind_assoc]

namespace Machine

def interpretBoth (limit : Nat) (first second : Program) (m : Machine) : Option (Report × Machine) :=
  (m.interpret limit first).bind fun ended =>
    if ended.1.status = .ok then ended.2.interpret limit second else some ended

def Interprets (m : Machine) (program : Program) (report : Report) (m' : Machine) : Prop :=
  ∃ limit, m.interpret limit program = some (report, m')

end Machine

section
variable {first second : Program} (clean : first.resolve.2 = []) (later : second.resolve.2 = [])
include clean later

theorem resolveAppendClean : (first ++ second).resolve.2 = [] := by
  rw [resolveAppend, clean, later]
  rfl

theorem interpretAppend (limit : Nat) (m : Machine) :
    m.interpret limit (first ++ second) = m.interpretBoth limit first second := by
  unfold Machine.interpretBoth
  rw [interpretAccepted (resolveAppendClean clean later), interpretAccepted clean, resolveAppend]
  simp only [interpretAccepted later, Machine.runChecked, execProgramAppend, Run.finish, bind, EStateM.bind]
  cases (evaluator limit).execProgram first.resolve.1 m with
  | ok done between => rfl
  | error halt between => cases halt <;> rfl

end

theorem interpretExtended {limit greater : Nat} (more : limit ≤ greater) {program : Program} {m m' : Machine}
    {report : Report} (ends : m.interpret limit program = some (report, m')) :
    m.interpret greater program = some (report, m') := by
  by_cases clean : program.resolve.2 = []
  · rw [interpretAccepted clean] at ends ⊢
    obtain ⟨⟨result, after⟩, finished, same⟩ := Option.map_eq_some_iff.mp ends
    rw [Machine.runChecked, (programExtended more program.resolve.1).finish finished]
    exact congrArg some same
  · rw [interpretRejected clean] at ends ⊢
    exact ends

theorem endedWell {limit : Nat} {program : Program} (clean : program.resolve.2 = []) {m m' : Machine} {report : Report}
    (ends : m.interpret limit program = some (report, m')) (ok : report.status = .ok) : report = ⟨.ok, []⟩ := by
  rw [interpretAccepted clean] at ends
  rcases runCheckedEnds ends with same | ⟨e, rfl⟩
  · exact same
  · cases ok

theorem interpretsAppend {first second : Program} (clean : first.resolve.2 = []) (later : second.resolve.2 = [])
    (m m' : Machine) (report : Report) : m.Interprets (first ++ second) report m' ↔
      (∃ between, m.Interprets first ⟨.ok, []⟩ between ∧ between.Interprets second report m') ∨
      (m.Interprets first report m' ∧ report.status ≠ .ok) := by
  constructor
  · rintro ⟨limit, ends⟩
    rw [interpretAppend clean later] at ends
    obtain ⟨⟨early, between⟩, started, continued⟩ := Option.bind_eq_some_iff.mp ends
    dsimp only at continued
    split at continued
    · rename_i ok
      cases endedWell clean started ok
      exact .inl ⟨between, ⟨limit, started⟩, limit, continued⟩
    · rename_i failed
      cases continued
      exact .inr ⟨⟨limit, started⟩, failed⟩
  · rintro (⟨between, ⟨limit, started⟩, ⟨limit', continued⟩⟩ | ⟨⟨limit, started⟩, failed⟩)
    · -- the greater of the two limits is enough for both
      refine ⟨max limit limit', ?_⟩
      rw [interpretAppend clean later, Machine.interpretBoth,
        interpretExtended (Nat.le_max_left limit limit') started]
      exact interpretExtended (Nat.le_max_right limit limit') continued
    · refine ⟨limit, ?_⟩
      rw [interpretAppend clean later, Machine.interpretBoth, started]
      exact if_neg failed

/- From any machine, two programs do the same together as one after the other: within any one limit, and also if each
of the runs has a limit of its own. -/
theorem batchAgrees (first second : Program) :
    (first ++ second).resolve = (first.resolve.1 ++ second.resolve.1, first.resolve.2 ++ second.resolve.2) ∧
    (first.resolve.2 = [] → second.resolve.2 = [] → ∀ m : Machine,
      (∀ limit, m.interpret limit (first ++ second) = m.interpretBoth limit first second) ∧
      ∀ report m', m.Interprets (first ++ second) report m' ↔
        (∃ between, m.Interprets first ⟨.ok, []⟩ between ∧ between.Interprets second report m') ∨
        (m.Interprets first report m' ∧ report.status ≠ .ok)) := by
  refine ⟨resolveAppend first second, ?_⟩
  intro clean later m
  exact ⟨fun limit => interpretAppend clean later limit m, fun report m' => interpretsAppend clean later m m' report⟩

def shadowingHalf : Program :=
  [.varDecl ⟨"a", 1⟩ none,
    .block [.varDecl ⟨"a", 2⟩ (some (.literal (.bool true) 2)), .print (.var ⟨"a", 2⟩ none)]]

def failingHalf : Program :=
  [.funDecl ⟨some ⟨"f", 3⟩, [⟨"b", 3⟩], [.returnStmt ⟨"return", 3⟩ (some (.unary .negate (.var ⟨"b", 3⟩ none) 3))], 3⟩,
    .expression (.call (.var ⟨"f", 4⟩ none) [.var ⟨"a", 4⟩ none] 4)]

theorem halvesAgree : shadowingHalf.resolve.2 = [] ∧ failingHalf.resolve.2 = [] ∧
    ((Machine.initial 0).interpret 9 (shadowingHalf ++ failingHalf)).map (fun ended => (ended.1, ended.2.output)) =
      some (⟨.runtimeError, [.runtime ⟨3, .operandNotNumber .nil⟩]⟩, "true\n") ∧
    (Machine.initial 0).interpret 9 (shadowingHalf ++ failingHalf) =
      (Machine.initial 0).interpretBoth 9 shadowingHalf failingHalf := by
  have clean : shadowingHalf.resolve.2 = [] := by decide +kernel
  have later : failingHalf.resolve.2 = [] := by decide +kernel
  exact ⟨clean, later, by decide +kernel, ((batchAgrees shadowingHalf failingHalf).2 clean later (.initial 0)).1 9⟩

end Treewalk
