import Treewalk.Proofs.Receivers.Rules
import Treewalk.Proofs.Mirror.Exact
import Treewalk.Proofs.Lexical.Resolution

/-! The receiver is the right one. In a method for instances, and in the functions and blocks in it, `this` is the
instance on which the method was accessed or for which it was the initializer, and the class of that instance descends
from the class that was made together with the method. -/
namespace Treewalk

open Walk

section Words

theorem labelSpared {decl : FunctionDecl} (named : decl.name ≠ none) (proper : decl.Proper) (kind : FunctionContext)
    (c : ScopeContext) : ((decl.resolve kind).result c).label ≠ "this" := by
  obtain ⟨name, params, body, line⟩ := decl
  cases name with
  | none => exact absurd rfl named
  | some ident => exact proper.1 ident (List.mem_append_left _ (List.mem_singleton_self ident))

theorem funDeclResolved (decl : FunctionDecl) (c : ScopeContext) :
    ∃ c', (Stmt.funDecl decl).resolve.result c = .funDecl ((decl.resolve .function).result c') := by
  obtain ⟨name, params, body, line⟩ := decl
  cases name with
  | none => exact ⟨_, rfl⟩
  | some ident => exact ⟨_, rfl⟩

mutual

theorem Expr.sparesThis (e : Expr) (c : ScopeContext) (proper : e.Proper) : "this" ∉ (e.resolve.result c).words := by
  cases e with
  | literal value line => exact List.not_mem_nil
  | unary op right line => exact right.sparesThis c proper
  | binary left op right line =>
    exact List.not_mem_append (left.sparesThis c proper.1) (right.sparesThis _ proper.2)
  | logical left op right line =>
    exact List.not_mem_append (left.sparesThis c proper.1) (right.sparesThis _ proper.2)
  | ternary condition thenBranch elseBranch line =>
    exact List.not_mem_append (condition.sparesThis c proper.1)
      (List.not_mem_append (thenBranch.sparesThis _ proper.2.1) (elseBranch.sparesThis _ proper.2.2))
  | grouping inner => exact inner.sparesThis c proper
  | var name depth => exact fun member => proper.1 (List.mem_singleton.mp member).symm
  | assign name value depth =>
    exact List.not_mem_cons_of_ne_of_not_mem (Ne.symm proper.1) (value.sparesThis c proper.2.2)
  | call callee arguments line =>
    exact List.not_mem_append (callee.sparesThis c proper.1) (Expr.sparesThisAll arguments _ proper.2)
  | get object name => exact object.sparesThis c proper
  | set object name value =>
    exact List.not_mem_append (object.sparesThis c proper.1) (value.sparesThis _ proper.2)
  | this keyword depth => exact List.not_mem_nil
  | lambda decl => exact decl.sparesThis .lambda c proper
termination_by structural e

theorem Expr.sparesThisAll (es : List Expr) (c : ScopeContext) (proper : Expr.ProperAll es) :
    "this" ∉ Expr.wordsAll ((Expr.resolveList es).result c) := by
  cases es with
  | nil => exact List.not_mem_nil
  | cons e rest => exact List.not_mem_append (e.sparesThis c proper.1) (Expr.sparesThisAll rest _ proper.2)
termination_by structural es

theorem Stmt.sparesThis (s : Stmt) (c : ScopeContext) (proper : s.Proper) : "this" ∉ (s.resolve.result c).words := by
  cases s with
  | expression value => exact value.sparesThis c proper
  | print value => exact value.sparesThis c proper
  | varDecl name initializer =>
    cases initializer with
    | none => exact fun member => proper (List.mem_singleton.mp member).symm
    | some initializer =>
      exact List.not_mem_cons_of_ne_of_not_mem (Ne.symm proper.1) (initializer.sparesThis _ proper.2)
  | block body => exact Stmt.sparesThisAll body _ proper
  | ifElse condition thenBranch elseBranch =>
    cases elseBranch with
    | none => exact List.not_mem_append (condition.sparesThis c proper.1) (thenBranch.sparesThis _ proper.2.1)
    | some elseBranch =>
      exact List.not_mem_append (condition.sparesThis c proper.1)
        (List.not_mem_append (thenBranch.sparesThis _ proper.2.1) (elseBranch.sparesThis _ proper.2.2.2.1))
  | whileLoop condition body =>
    exact List.not_mem_append (condition.sparesThis c proper.1) (body.sparesThis _ proper.2.1)
  | funDecl decl =>
    obtain ⟨c', same⟩ := funDeclResolved decl c
    rw [same]
    exact List.not_mem_cons_of_ne_of_not_mem (Ne.symm (labelSpared proper.1 proper.2 _ _))
      (decl.sparesThis .function _ proper.2)
  | classDecl decl => exact decl.sparesThis c proper
  | returnStmt keyword value =>
    cases value with
    | none => exact List.not_mem_nil
    | some value => exact value.sparesThis _ proper
termination_by structural s

theorem Stmt.sparesThisAll (body : List Stmt) (c : ScopeContext) (proper : Stmt.ProperAll body) :
    "this" ∉ Stmt.wordsAll ((Stmt.resolveList body).result c) := by
  cases body with
  | nil => exact List.not_mem_nil
  | cons s rest => exact List.not_mem_append (s.sparesThis c proper.1) (Stmt.sparesThisAll rest _ proper.2)
termination_by structural body

theorem FunctionDecl.sparesThis (decl : FunctionDecl) (kind : FunctionContext) (c : ScopeContext)
    (proper : decl.Proper) : "this" ∉ ((decl.resolve kind).result c).words := by
  obtain ⟨name, params, body, line⟩ := decl
  refine List.not_mem_append ?_ (Stmt.sparesThisAll body _ proper.2)
  intro member
  obtain ⟨param, inside, same⟩ := List.mem_map.mp member
  exact proper.1 param (List.mem_append_right _ inside) same
termination_by structural decl

theorem FunctionDecl.sparesThisMethods (decls : List FunctionDecl) (c : ScopeContext)
    (proper : FunctionDecl.ProperAll decls) :
    "this" ∉ FunctionDecl.wordsAll ((FunctionDecl.resolveMethods decls).result c) := by
  cases decls with
  | nil => exact List.not_mem_nil
  | cons f rest =>
    exact List.not_mem_append (f.sparesThis _ c proper.1) (FunctionDecl.sparesThisMethods rest _ proper.2)
termination_by structural decls

theorem FunctionDecl.sparesThisClassMethods (decls : List FunctionDecl) (c : ScopeContext)
    (proper : FunctionDecl.ProperAll decls) :
    "this" ∉ FunctionDecl.wordsAll ((FunctionDecl.resolveClassMethods decls).result c) := by
  cases decls with
  | nil => exact List.not_mem_nil
  | cons f rest =>
    exact List.not_mem_append (f.sparesThis _ c proper.1) (FunctionDecl.sparesThisClassMethods rest _ proper.2)
termination_by structural decls

theorem ClassDecl.sparesThis (decl : ClassDecl) (c : ScopeContext) (proper : decl.Proper) :
    "this" ∉ (decl.resolve.result c).words := by
  obtain ⟨name, superclass, methods, classMethods⟩ := decl
  refine List.not_mem_cons_of_ne_of_not_mem (Ne.symm proper.2.2) (List.not_mem_append ?_
    (List.not_mem_append (FunctionDecl.sparesThisMethods methods _ proper.2.1.1)
      (FunctionDecl.sparesThisClassMethods classMethods _ proper.2.1.2)))
  cases superclass with
  | none => exact List.not_mem_nil
  | some superclass =>
    obtain ⟨up, rfl, other⟩ := proper.1 superclass rfl
    exact fun member => other (List.mem_singleton.mp member).symm
termination_by structural decl

end

end Words

section Sessions

theorem startTracked {m : Machine} (fresh : m.Fresh) : Tracked ⟨m, .none⟩ := by
  refine ⟨fun id f found => absurd found (fresh.functions id f), fun cls c found => absurd found (fresh.classes cls c),
    nofun, ?_⟩
  intro newer e older split
  exact absurd split.symm (List.append_ne_nil_of_right_ne_nil newer (List.cons_ne_nil e older))

theorem sessionActivated {programs : List Program} {m : Machine} (limit : Nat) (fresh : m.Fresh)
    (proper : ∀ p ∈ programs, Stmt.ProperAll p) {newer older : List Event} {e : Event}
    (split : m.events limit programs = newer ++ e :: older) : Activated older e.machine.heap e.sites := by
  have moves : tracking.Moves ⟨m, .none⟩ (observedAfter (watchSession limit 0 programs ⟨m, .none⟩)) := by
    refine trackingInductive.session limit 0 (startTracked fresh) ?_
    intro i p s found moves
    have spared : "this" ∉ Stmt.wordsAll p.resolve.1 :=
      Stmt.sparesThisAll p .outermost (proper p (List.mem_of_getElem? found))
    exact (trackingInductive.execProgram (trackingInductive.upTo limit) (Invariant.sparingSequence _) moves.tracked
      spared).2.1
  rw [Machine.eventsAfter] at split
  exact moves.tracked.events newer e older split

end Sessions

section Slots
variable {programs : List Program} {place : Place} {phrase : Phrase} {inner outer : Address} {index : Nat}

theorem methodHere (located : Located programs (.method index :: outer) place phrase) :
    (∃ kind decl, phrase = .function kind decl) ∧
      enclosing programs (.method index :: outer) = ⟨outer, .receiver⟩ :: enclosing programs outer := by
  cases located with
  | @part _ _ whole _ _ _ around inside =>
    have child := childPart inside
    rw [enclosing, around.opened]
    cases whole with
    | stmt s =>
      cases s with
      | classDecl decl =>
        obtain ⟨f, _, rfl⟩ := List.mem_map.mp (List.mem_of_getElem? child)
        exact ⟨⟨_, f, rfl⟩, rfl⟩
      | _ => cases child
    | _ => cases child

theorem methodSites (located : Located programs (inner ++ .method index :: outer) place phrase) (inside : inner ≠ [])
    (around : nearest programs Phrase.isClass (inner ++ .method index :: outer) = some outer) :
    ∃ before, enclosing programs (inner ++ .method index :: outer) =
        before ++ ⟨.method index :: outer, .parameters⟩ :: ⟨outer, .receiver⟩ :: enclosing programs outer ∧
      ∀ site ∈ before, ¬ site.role.ofClass = true := by
  induction inner generalizing place phrase with
  | nil => exact absurd rfl inside
  | cons step inner ih =>
    have more : inner ++ .method index :: outer ≠ [] := List.append_ne_nil_of_right_ne_nil inner (List.cons_ne_nil _ _)
    obtain ⟨place', whole, located', part⟩ : ∃ place' whole, Located programs (inner ++ .method index :: outer) place'
        whole ∧ whole.part? (inner ++ .method index :: outer) place' step = some (place, phrase) := located.around more
    rw [List.cons_append, nearestStep located'.phraseAt] at around
    rw [List.cons_append, enclosing, located'.opened]
    split at around
    · -- a class here would be nearer than the one at `outer`
      have long := congrArg List.length (Option.some.inj around)
      simp only [List.length_append, List.length_cons] at long
      omega
    · rename_i plain
      have free : ∀ site ∈ whole.opens (inner ++ .method index :: outer) step, ¬ site.role.ofClass = true :=
        opensPlain (Bool.eq_false_iff.mpr plain) step
      cases inner with
      | nil =>
        obtain ⟨⟨kind, decl, rfl⟩, sites⟩ := methodHere located'
        cases step with
        | item i =>
          refine ⟨[⟨.method index :: outer, .body⟩], ?_, List.forall_mem_singleton.mpr Bool.false_ne_true⟩
          rw [List.nil_append, sites]
          rfl
        | _ => cases childPart part
      | cons next inner =>
        obtain ⟨before, sites, others⟩ := ih located' (List.cons_ne_nil next inner) around
        refine ⟨_ ++ before, ?_, List.forall_mem_append.mpr ⟨free, others⟩⟩
        rw [sites, List.append_assoc]

theorem receiverOutside {e : Expr} (proper : ∀ p ∈ programs, Stmt.ProperAll p)
    (located : Located programs (inner ++ .method index :: outer) place (.expr e))
    (around : nearest programs Phrase.isClass (inner ++ .method index :: outer) = some outer) :
    ∃ depth, place.sites[depth]? = some ⟨.method index :: outer, .parameters⟩ ∧
      place.context.scopes.findIdx? (·.contains "this") = some (depth + 1) := by
  have inside : inner ≠ [] := by
    intro direct
    subst direct
    obtain ⟨⟨_, _, isFunction⟩, _⟩ := methodHere located
    cases isFunction
  obtain ⟨before, sites, free⟩ := methodSites located inside around
  have first : FirstAt (·.role.ofClass = true)
      (⟨.method index :: outer, .parameters⟩ :: ⟨outer, .receiver⟩ :: enclosing programs outer) (some 1) :=
    ⟨_, rfl, rfl, List.forall_mem_singleton.mpr Bool.false_ne_true⟩
  have outward := first.outward free
  rw [← sites] at outward
  refine ⟨before.length, ?_, (receiverCounted proper located _).mpr outward⟩
  rw [locatedSites located, sites]
  simp

theorem receiverCountedOut {keyword : Ident} {c : ScopeContext}
    (clean : ((thisSlot keyword none).after c).errors = []) :
    (thisSlot keyword none).result c = c.scopes.findIdx? (·.contains keyword.name) := by
  have reported : ∀ error, ((report keyword error).after c).errors ≠ [] :=
    fun error empty => List.cons_ne_nil _ _ (List.append_eq_nil_iff.mp empty).2
  change ScopeContext.errors (Prod.snd ((if !c.inClass then _ else if c.function == .classMethod then _ else _ :
    Walk Depth) c)) = [] at clean
  change Prod.fst ((if !c.inClass then _ else if c.function == .classMethod then _ else _ : Walk Depth) c) = _
  split at clean
  · exact absurd clean (reported .thisOutsideClass)
  · split at clean
    · exact absurd clean (reported .thisInClassMethod)
    · rename_i inClass direct
      rw [if_neg inClass, if_neg direct]
      exact slotResult keyword c

theorem thisNode {keyword : Ident} {slot : Depth} {c : ScopeContext} (proper : phrase.Proper)
    (clean : (phrase.resolve.after c).errors = []) (resolved : .expr (.this keyword slot) = phrase.resolve.result c) :
    phrase = .expr (.this keyword none) ∧ keyword.name = "this" ∧ slot = c.scopes.findIdx? (·.contains "this") := by
  obtain ⟨source, rfl, made⟩ := resolvedExpr resolved
  cases source with
  | this ident old =>
    obtain ⟨spelled, rfl⟩ := proper
    have counted := receiverCountedOut clean
    rw [spelled] at counted
    have made : Expr.this keyword slot = .this ident ((thisSlot ident none).result c) := made
    cases made
    exact ⟨rfl, spelled, counted⟩
  | _ => cases made

end Slots

theorem Frames.ancestorParent {fs : Frames} {id frame parent : FrameId} {depth : Nat}
    (reached : fs.ancestor? id depth = some frame) (link : fs.parent? frame = some parent) :
    fs.ancestor? id (depth + 1) = some parent := by
  induction depth generalizing id with
  | zero =>
    cases reached
    simp only [Frames.ancestor?, link, Option.bind_some]
  | succ depth ih =>
    obtain ⟨above, up, rest⟩ := Option.bind_eq_some_iff.mp reached
    rw [Frames.ancestor?, up, Option.bind_some]
    exact ih rest

/- Whatever is run in a session, a `this` in a method for instances, with no class in between, is the receiver of the
activation around it: what `this` is bound to in the frame around the parameters of that activation. -/
theorem receiversAreRight {programs : List Program} {m : Machine} (limit : Nat) (idle : m.Idle) (fresh : m.Fresh)
    (parsed : ∀ p ∈ programs, ∃ source, Source.program source = .ok p)
    (accepted : ∀ p ∈ programs, p.resolve.2 = []) :
    ended (watchSession limit 0 programs ⟨m, .none⟩) = m.interpretAll limit programs ∧
    ∀ newer e older keyword slot, m.events limit programs = newer ++ e :: older →
      e.node = .expr (.this keyword slot) → ∃ address, e.address = some address ∧
        ∀ inner index outer, address = inner ++ .method index :: outer →
          nearest programs Phrase.isClass address = some outer →
          ∃ (b : BoundMethod) (depth : Nat) (activation : FrameId),
            (∀ more, (evaluator (more + 1)).eval (.this keyword slot) e.machine =
              .ok (.instanceObject b.receiver) e.machine) ∧
            e.frames.ancestor? e.machine.environment depth = some activation ∧
            e.sites activation = some ⟨.method index :: outer, .parameters⟩ ∧
            e.frames.parent? activation = some b.frame ∧ b.Right older e.machine.heap index outer := by
  have proper := parsedProper parsed
  refine ⟨eraseSession limit accepted 0 _, ?_⟩
  intro newer e older keyword slot split node
  have member : e ∈ m.events limit programs := by
    rw [split]
    exact List.mem_append_right _ List.mem_cons_self
  have recorded := Setting.sessionRecorded limit idle proper accepted e member
  cases known : e.address with
  | none => exact absurd fresh (recorded.fresh known)
  | some address =>
    refine ⟨address, rfl, ?_⟩
    intro inner index outer same around
    subst same
    obtain ⟨place, phrase, located, resolved, mirrors⟩ := recorded.mirrors known
    obtain ⟨rfl, spelled, counted⟩ := thisNode (locatedProper proper located) (locatedAccepted accepted located)
      (node.symm.trans resolved)
    obtain ⟨depth, there, first⟩ := receiverOutside proper located around
    obtain ⟨activation, reached, _, made, _⟩ := mirrors.frames _ _ there
    obtain ⟨parent, link, b, rfl, right⟩ := sessionActivated limit fresh proper split activation index outer made
    refine ⟨b, depth, activation, ?_, reached, made, link, right⟩
    intro more
    have outward : e.machine.heap.frames.ancestor? e.machine.environment (depth + 1) = some b.frame :=
      Frames.ancestorParent reached link
    change Run.lookUp keyword slot e.machine = _
    rw [counted, first]
    simp only [Run.lookUp, Frames.getAt, outward, Option.bind_some, spelled, right.bound]
    rfl

/- A method that is inherited, bound for later, and makes a function that is called when it has returned. -/
def heirText : String :=
  "class A \x7b get() \x7b return fun () \x7b this; \x7d; \x7d \x7d class B < A \x7b \x7d var f = B().get; f()();"

def heirProgram : Program :=
  [.classDecl ⟨⟨"A", 1⟩, none,
      [⟨some ⟨"get", 1⟩, [], [.returnStmt ⟨"return", 1⟩ (some (.lambda
        ⟨none, [], [.expression (.this ⟨"this", 1⟩ none)], 1⟩))], 1⟩], []⟩,
    .classDecl ⟨⟨"B", 1⟩, some (.var ⟨"A", 1⟩ none), [], []⟩,
    .varDecl ⟨"f", 1⟩ (some (.get (.call (.var ⟨"B", 1⟩ none) [] 1) ⟨"get", 1⟩)),
    .expression (.call (.call (.var ⟨"f", 1⟩ none) [] 1) [] 1)]

def heirReceiver : Address := [.item 0, .item 0, .function, .item 0, .item 0, .method 0, .item 0, .program 0]

theorem heirParsed : Source.program heirText = .ok heirProgram := readAs (by decide +kernel)

theorem heirAccepted : heirProgram.resolve.2 = [] := by decide

theorem heirReached : ((Machine.initial 0).events 9 [heirProgram]).head?.map (fun e => (e.address, e.node)) =
    some (some heirReceiver, .expr (.this ⟨"this", 1⟩ (some 4))) := by decide +kernel

theorem heirAround : nearest [heirProgram] Phrase.isClass heirReceiver = some [.item 0, .program 0] := by decide +kernel

theorem heirReceived : (Machine.initial 0).Idle ∧ (Machine.initial 0).Fresh ∧
    Source.program heirText = .ok heirProgram ∧ heirProgram.resolve.2 = [] ∧
    nearest [heirProgram] Phrase.isClass heirReceiver = some [.item 0, .program 0] ∧
    ∃ e older, (Machine.initial 0).events 9 [heirProgram] = e :: older ∧
      e.node = .expr (.this ⟨"this", 1⟩ (some 4)) ∧ e.address = some heirReceiver ∧
      ∃ b : BoundMethod, (evaluator 1).eval (.this ⟨"this", 1⟩ (some 4)) e.machine =
        .ok (.instanceObject b.receiver) e.machine ∧ b.Right older e.machine.heap 0 [.item 0, .program 0] := by
  refine ⟨Machine.initialIdle 0, Machine.initialFresh 0, heirParsed, heirAccepted, heirAround, ?_⟩
  obtain ⟨_, all⟩ := receiversAreRight 9 (Machine.initialIdle 0) (Machine.initialFresh 0)
    (List.forall_mem_singleton.mpr ⟨heirText, heirParsed⟩) (List.forall_mem_singleton.mpr heirAccepted)
  obtain ⟨e, head, facts⟩ := Option.map_eq_some_iff.mp heirReached
  obtain ⟨older, split⟩ := List.head?_eq_some_iff.mp head
  obtain ⟨known, node⟩ := Prod.mk.inj facts
  obtain ⟨address, same, found⟩ := all [] e older _ _ split node
  cases known.symm.trans same
  obtain ⟨b, _, _, value, _, _, _, right⟩ :=
    found [.item 0, .item 0, .function, .item 0, .item 0] 0 [.item 0, .program 0] rfl heirAround
  exact ⟨e, older, split, node, known, b, value 0, right⟩

end Treewalk
