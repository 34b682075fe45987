import Treewalk.Proofs.Lexical.Diagnostics

/-! The slots of a resolved program. Every name is counted out to the nearest scope that declares it before its use, and
`this` to the scope of the nearest class. -/
namespace Treewalk

open Walk

def Phrase.use? : Phrase → Option (Ident × Depth)
  | .expr (.var name slot) => some (name, slot)
  | .expr (.assign name _ slot) => some (name, slot)
  | _ => none

def FirstAt (Q : Site → Prop) (sites : List Site) : Depth → Prop
  | some depth => ∃ site, sites[depth]? = some site ∧ Q site ∧ ∀ nearer ∈ sites.take depth, ¬ Q nearer
  | none => ∀ site ∈ sites, ¬ Q site

def LexicalSlot (programs : List Program) (address : Address) (name : String) (slot : Depth) : Prop :=
  FirstAt (fun site => DeclaredBefore programs site name ⟨address, 0⟩) (enclosing programs address) slot

/- How far out the nearest class has its scope. There is no slot just where the keyword is reported. -/
def ReceiverSlot (programs : List Program) (errors : List ScopeError) (address : Address) : Depth → Prop
  | some depth => (∀ error, ¬ Violation programs ⟨address, 0⟩ error) ∧
      FirstAt (·.role.ofClass = true) (enclosing programs address) (some depth) ∧
      (enclosing programs address)[depth]?.map Site.opener = nearest programs Phrase.isClass address
  | none => ∃ error ∈ errors, Violation programs ⟨address, 0⟩ error

section Nodes

theorem nameKept (kind : FunctionContext) (f : FunctionDecl) (c : ScopeContext) :
    ((f.resolve kind).result c).name = f.name := by
  obtain ⟨name, params, body, line⟩ := f
  rfl

theorem contextKept (kind : FunctionContext) (f : FunctionDecl) (c : ScopeContext) :
    ((f.resolve kind).result c).methodContext = f.methodContext := by
  unfold FunctionDecl.methodContext FunctionDecl.isInitializer FunctionDecl.label
  rw [nameKept]

theorem membersResolved {kind : FunctionDecl → FunctionContext} (kept : ∀ f c, kind ((f.resolve (kind f)).result c) = kind f)
    (decls : List FunctionDecl) (c : ScopeContext) :
    ((Phrase.resolveMembers kind decls).result c).map (fun f => Phrase.function (kind f) f) =
      (Phrase.resolveAll (decls.map fun f => .function (kind f) f)).result c := by
  induction decls generalizing c with
  | nil => rfl
  | cons f rest ih =>
    have tail := ih ((f.resolve (kind f)).after c)
    have head : Phrase.function (kind ((f.resolve (kind f)).result c)) ((f.resolve (kind f)).result c) =
        (Phrase.function (kind f) f).resolve.result c := by
      rw [kept]
      rfl
    exact congrArg₂ List.cons head tail

def Place.resolved (found : Place × Phrase) : Phrase := found.2.resolve.result found.1.context

theorem itemResolved (address : Address) (place : Place) (phrase : Phrase) (index : Nat) :
    (phrase.resolve.result place.context).child? (.item index) =
      (phrase.part? address place (.item index)).map Place.resolved := by
  have items : (phrase.resolve.result place.context).child? (.item index) =
      (phrase.resolve.result place.context).items[index]? := rfl
  rw [items, Phrase.itemsResolved address, Place.threadResolved]
  rfl

theorem classChildResolved (address : Address) (place : Place) (decl : ClassDecl) (step : Step) :
    ((Phrase.stmt (.classDecl decl)).resolve.result place.context).child? step =
      ((Phrase.stmt (.classDecl decl)).part? address place step).map Place.resolved := by
  obtain ⟨name, superclass, methods, classMethods⟩ := decl
  cases step with
  | item index => exact itemResolved address place _ index
  | superclass => cases superclass <;> rfl
  | method index =>
    have members := membersResolved (fun f c => contextKept f.methodContext f c) methods
      (place.ofClass address .receiver ⟨name, superclass, methods, classMethods⟩).context
    rw [← Phrase.methodsAreMembers] at members
    exact (congrArg (·[index]?) members).trans (Place.threadResolved _ _ _)
  | classMethod index =>
    have members := @membersResolved (fun _ => .classMethod) (fun f c => rfl) classMethods
      ((place.ofClass address .classSide ⟨name, superclass, methods, classMethods⟩).after
        (FunctionDecl.resolveMethods methods)).context
    rw [← Phrase.classMethodsAreMembers] at members
    exact (congrArg (·[index]?) members).trans (Place.threadResolved _ _ _)
  | _ => rfl

theorem childResolved (address : Address) (place : Place) (phrase : Phrase) (step : Step) :
    (phrase.resolve.result place.context).child? step = (phrase.part? address place step).map Place.resolved := by
  cases step with
  | item index => exact itemResolved address place phrase index
  | _ =>
    cases phrase with
    | stmt s =>
      cases s with
      | varDecl name initializer => cases initializer <;> rfl
      | ifElse condition thenBranch elseBranch => cases elseBranch <;> rfl
      | returnStmt keyword value => cases value <;> rfl
      | funDecl decl =>
        obtain ⟨name, params, body, line⟩ := decl
        cases name <;> rfl
      | classDecl decl => exact classChildResolved address place decl _
      | _ => rfl
    | expr e => cases e <;> rfl
    | _ => rfl

theorem phraseResolved (programs : List Program) (address : Address) :
    phraseAt (programs.map fun p => p.resolve.1) address = (locate programs address).map Place.resolved := by
  induction address with
  | nil => rfl
  | cons step address ih =>
    cases address with
    | nil =>
      cases step with
      | program index =>
        simp only [phraseAt, locate, List.getElem?_map, Option.map_map]
        rfl
      | _ => rfl
    | cons next rest =>
      rw [phraseStep, locateStep, ih]
      cases locate programs (next :: rest) with
      | none => rfl
      | some found => exact childResolved (next :: rest) found.1 found.2 step

end Nodes

section Counting
variable {programs : List Program} {address : Address} {place : Place} {phrase : Phrase}

theorem FirstAt.innermost {Q : Site → Prop} {site : Site} {sites : List Site} (holds : Q site) :
    FirstAt Q (site :: sites) (some 0) :=
  ⟨site, rfl, holds, fun _ member => absurd member List.not_mem_nil⟩

theorem findFirst {R : Site → Scope → Prop} {p : Scope → Bool} {Q : Site → Prop}
    (matching : ∀ site scope, R site scope → (p scope = true ↔ Q site)) {sites : List Site} {scopes : List Scope}
    (related : List.Forall₂ R sites scopes) (slot : Depth) : scopes.findIdx? p = slot ↔ FirstAt Q sites slot := by
  induction related generalizing slot with
  | nil => cases slot <;> simp [FirstAt]
  | @cons site scope sites scopes here rest ih =>
    rw [List.findIdx?_cons]
    split
    · rename_i first
      have holds := (matching site scope here).mp first
      cases slot with
      | none => exact iff_of_false nofun fun nowhere => nowhere site List.mem_cons_self holds
      | some depth =>
        cases depth with
        | zero => exact iff_of_true rfl (.innermost holds)
        | succ depth =>
          refine iff_of_false nofun ?_
          intro found
          obtain ⟨_, _, _, nearer⟩ := found
          exact nearer site List.mem_cons_self holds
    · rename_i other
      have fails : ¬ Q site := fun holds => other ((matching site scope here).mpr holds)
      cases slot with
      | none =>
        rw [Option.map_eq_none_iff, ih none]
        exact ⟨fun nowhere => List.forall_mem_cons.mpr ⟨fails, nowhere⟩, fun nowhere => (List.forall_mem_cons.mp nowhere).2⟩
      | some depth =>
        cases depth with
        | zero =>
          refine iff_of_false (by simp) ?_
          intro found
          obtain ⟨_, same, holds, _⟩ := found
          cases same
          exact fails holds
        | succ depth =>
          have next : (scopes.findIdx? p).map (· + 1) = some (depth + 1) ↔ scopes.findIdx? p = some depth := by simp
          rw [next, ih (some depth)]
          refine exists_congr fun found => and_congr_right fun _ => and_congr_right fun _ => ?_
          exact ⟨fun nearer => List.forall_mem_cons.mpr ⟨fails, nearer⟩, fun nearer => (List.forall_mem_cons.mp nearer).2⟩

theorem lexicalCounted (proper : ∀ p ∈ programs, Stmt.ProperAll p) (located : Located programs address place phrase)
    {name : String} (other : name ≠ "this") (slot : Depth) :
    place.context.scopes.findIdx? (·.contains name) = slot ↔ LexicalSlot programs address name slot :=
  findFirst (fun _ _ knows => knows.named other) (locatedKnows proper located) slot

theorem declaresNoThis (proper : ∀ p ∈ programs, Stmt.ProperAll p) {site : Site} {mark : Mark} {ident : Ident}
    (declares : Declares programs site mark ident) : ident.name ≠ "this" := by
  cases declares with
  | statement here named innermost =>
    obtain ⟨place, located⟩ := locatedAt here
    exact declaredProper (locatedProper proper located) named
  | @parameter address kind decl index ident here named =>
    obtain ⟨place, located⟩ := locatedAt here
    obtain ⟨name, params, body, line⟩ := decl
    have properFunction : FunctionDecl.Proper ⟨name, params, body, line⟩ := locatedProper proper located
    exact properFunction.1 ident (List.mem_append_right _ (List.mem_of_getElem? named))

theorem receiverCounted (proper : ∀ p ∈ programs, Stmt.ProperAll p) (located : Located programs address place phrase)
    (slot : Depth) : place.context.scopes.findIdx? (·.contains "this") = slot ↔
      FirstAt (·.role.ofClass = true) (enclosing programs address) slot := by
  refine findFirst (fun site scope knows => ?_) (locatedKnows proper located) slot
  rw [knows "this"]
  constructor
  · intro either
    obtain ⟨ofClass, _⟩ | ⟨_, _, declares, same, _⟩ := either
    · exact ofClass
    · exact absurd same (declaresNoThis proper declares)
  · exact fun ofClass => .inl ⟨ofClass, rfl⟩

theorem FirstAt.outward {Q : Site → Prop} {sites : List Site} {depth : Nat} (first : FirstAt Q sites (some depth))
    {fresh : List Site} (fails : ∀ site ∈ fresh, ¬ Q site) : FirstAt Q (fresh ++ sites) (some (fresh.length + depth)) := by
  obtain ⟨site, there, holds, nearer⟩ := first
  refine ⟨site, ?_, holds, ?_⟩
  · rw [List.getElem?_append_right (Nat.le_add_right _ _), Nat.add_sub_cancel_left]
    exact there
  · rw [List.take_length_add_append]
    exact List.forall_mem_append.mpr ⟨fails, nearer⟩

theorem opensPlain (plain : phrase.isClass = false) (step : Step) :
    ∀ site ∈ phrase.opens address step, ¬ site.role.ofClass = true := by
  unfold Phrase.opens
  split
  · exact List.forall_mem_singleton.mpr nofun
  · exact List.forall_mem_cons.mpr ⟨nofun, List.forall_mem_singleton.mpr nofun⟩
  · cases plain
  · cases plain
  · exact nofun

theorem classSite (proper : ∀ p ∈ programs, Stmt.ProperAll p) (located : Located programs address place phrase)
    {opener : Address} (around : nearest programs Phrase.isClass address = some opener) :
    (∃ depth, FirstAt (·.role.ofClass = true) (enclosing programs address) (some depth) ∧
      (enclosing programs address)[depth]?.map Site.opener = some opener) ∨
    ∃ name slot, phrase = .expr (.var name slot) := by
  induction located with
  | program here => cases around
  | @part address place phrase step place' part outer inside ih =>
    have child := childPart inside
    rw [nearestStep outer.phraseAt] at around
    rw [enclosing, outer.opened]
    split at around
    · rename_i isClass
      cases around
      cases phrase with
      | stmt s =>
        cases s with
        | classDecl decl =>
          obtain ⟨name, superclass, methods, classMethods⟩ := decl
          cases step with
          | method index => exact .inl ⟨0, .innermost rfl, rfl⟩
          | classMethod index => exact .inl ⟨0, .innermost rfl, rfl⟩
          | superclass =>
            right
            cases superclass with
            | none => cases child
            | some superclass =>
              obtain ⟨superclass, rfl, _⟩ := (locatedProper proper outer).1 superclass rfl
              cases child
              exact ⟨superclass, none, rfl⟩
          | _ => cases child
        | _ => cases isClass
      | _ => cases isClass
    · rename_i plain
      obtain ⟨depth, first, same⟩ | ⟨name, slot, rfl⟩ := ih around
      · refine .inl ⟨_, first.outward (opensPlain (Bool.eq_false_iff.mpr plain) step), ?_⟩
        rw [List.getElem?_append_right (Nat.le_add_right _ _), Nat.add_sub_cancel_left]
        exact same
      · cases step <;> cases child

end Counting

section Slots
variable {programs : List Program} {address : Address} {place : Place} {phrase : Phrase}

theorem useExact (proper : ∀ p ∈ programs, Stmt.ProperAll p) (located : Located programs address place phrase)
    {name : Ident} {slot : Depth} : (phrase.resolve.result place.context).use? = some (name, slot) ↔
      (∃ old, phrase.use? = some (name, old)) ∧ LexicalSlot programs address name.name slot := by
  have properPhrase := locatedProper proper located
  have neither : ∀ P : Prop, none = some (name, slot) ↔ (∃ old : Depth, none = some (name, old)) ∧ P := by simp
  have counted : ∀ ident : Ident, ident.name ≠ "this" →
      (some (ident, place.context.scopes.findIdx? (·.contains ident.name)) = some (name, slot) ↔
        (∃ old : Depth, some (ident, none) = some (name, old)) ∧ LexicalSlot programs address name.name slot) := by
    intro ident other
    constructor
    · intro same
      cases same
      exact ⟨⟨none, rfl⟩, (lexicalCounted proper located other _).mp rfl⟩
    · intro given
      obtain ⟨⟨old, same⟩, lexical⟩ := given
      cases same
      rw [(lexicalCounted proper located other _).mpr lexical]
  cases phrase with
  | expr e =>
    cases e with
    | var ident old =>
      obtain ⟨other, rfl⟩ := properPhrase
      have resolved : (Phrase.expr (.var ident none)).resolve.result place.context =
          .expr ((Expr.var ident none).resolve.result place.context) := rfl
      rw [resolved, resolvedVar]
      exact counted ident other
    | assign ident value old =>
      obtain ⟨other, rfl, _⟩ := properPhrase
      have resolved : (Phrase.expr (.assign ident value none)).resolve.result place.context =
          .expr ((Expr.assign ident value none).resolve.result place.context) := rfl
      rw [resolved, resolvedAssign]
      exact counted ident other
    | _ => exact neither _
  | _ => exact neither _

theorem thisSlotExact (keyword : Ident) (c : ScopeContext) : (thisSlot keyword none).result c =
    if !c.inClass || c.function == .classMethod then none else c.scopes.findIdx? (·.contains keyword.name) := by
  unfold thisSlot result
  rw [getThen]
  cases c.inClass with
  | false => rfl
  | true =>
    cases c.function == .classMethod with
    | true => rfl
    | false => exact slotResult keyword c

theorem thisViolation (proper : ∀ p ∈ programs, Stmt.ProperAll p) {keyword : Ident} {old : Depth}
    (located : Located programs address place (.expr (.this keyword old))) :
    (∃ error, Violation programs ⟨address, 0⟩ error) ↔
      (!place.context.inClass || place.context.function == .classMethod) = true := by
  constructor
  · intro given
    obtain ⟨error, violation⟩ := given
    obtain noted | noted := List.mem_append.mp (violationOwn proper located violation)
    · obtain ⟨wrong, _⟩ := memNote.mp noted
      rw [wrong, Bool.true_or]
    · obtain ⟨wrong, _⟩ := memNote.mp noted
      rw [(Bool.and_eq_true_iff.mp wrong).2, Bool.or_true]
  · intro wrong
    have known := locatedInClass located
    cases inClass : place.context.inClass with
    | false =>
      rw [inClass] at known
      exact ⟨_, .thisOutsideClass located.phraseAt (by simpa using known)⟩
    | true =>
      rw [inClass, Bool.not_true, Bool.false_or] at wrong
      obtain ⟨index, outer, around⟩ := (inClassMethod located).mp (beq_iff_eq.mp wrong)
      exact ⟨_, .thisInClassMethod located.phraseAt around⟩

theorem receiverSlotted (proper : ∀ p ∈ programs, Stmt.ProperAll p) {keyword : Ident}
    (located : Located programs address place (.expr (.this keyword none))) {errors : List ScopeError}
    (reported : ∀ error, Violation programs ⟨address, 0⟩ error → error ∈ errors) (slot : Depth) :
    (thisSlot keyword none).result place.context = slot ↔ ReceiverSlot programs errors address slot := by
  obtain ⟨spelled, _⟩ := locatedProper proper located
  rw [thisSlotExact, spelled]
  split
  · rename_i wrong
    obtain ⟨error, violation⟩ := (thisViolation proper located).mpr wrong
    cases slot with
    | none => exact iff_of_true rfl ⟨error, reported error violation, violation⟩
    | some depth => exact iff_of_false nofun fun receiver => receiver.1 error violation
  · rename_i right
    have clean : ∀ error, ¬ Violation programs ⟨address, 0⟩ error :=
      fun error violation => right ((thisViolation proper located).mp ⟨error, violation⟩)
    have inClass : place.context.inClass = true := by
      cases inClass : place.context.inClass with
      | true => rfl
      | false => exact absurd (by rw [inClass]; rfl) right
    rw [locatedInClass located] at inClass
    obtain ⟨opener, around⟩ := Option.isSome_iff_exists.mp inClass
    obtain ⟨depth, first, same⟩ | ⟨_, _, isVar⟩ := classSite proper located around
    · rw [(receiverCounted proper located _).mpr first]
      cases slot with
      | none =>
        refine iff_of_false nofun ?_
        intro given
        obtain ⟨error, _, violation⟩ := given
        exact clean error violation
      | some other =>
        constructor
        · intro equal
          cases equal
          exact ⟨clean, first, same.trans around.symm⟩
        · intro receiver
          have counted := (receiverCounted proper located _).mpr first
          exact counted.symm.trans ((receiverCounted proper located _).mpr receiver.2.1)
    · cases isVar

theorem receiverExact (proper : ∀ p ∈ programs, Stmt.ProperAll p) (located : Located programs address place phrase)
    {errors : List ScopeError} (reported : ∀ error, Violation programs ⟨address, 0⟩ error → error ∈ errors)
    {keyword : Ident} {slot : Depth} : phrase.resolve.result place.context = .expr (.this keyword slot) ↔
      (∃ old, phrase = .expr (.this keyword old)) ∧ ReceiverSlot programs errors address slot := by
  cases phrase with
  | expr e =>
    cases e with
    | this ident old =>
      obtain ⟨_, rfl⟩ := locatedProper proper located
      have resolved : (Phrase.expr (.this ident none)).resolve.result place.context =
          .expr (.this ident ((thisSlot ident none).result place.context)) := rfl
      rw [resolved, ← receiverSlotted proper located reported slot]
      simp
    | _ => exact iff_of_false nofun nofun
  | _ => exact iff_of_false nofun nofun

end Slots

/- After resolution each use of a name has its lexical slot, and each `this` that is not reported that of its class. -/
theorem slotsAreLexical {source : String} {program : Program} (parsed : Source.program source = .ok program) :
    (∀ address name slot, (phraseAt [program.resolve.1] address).bind Phrase.use? = some (name, slot) ↔
      (∃ old, (phraseAt [program] address).bind Phrase.use? = some (name, old)) ∧
        LexicalSlot [program] address name.name slot) ∧
    ∀ address keyword slot, phraseAt [program.resolve.1] address = some (.expr (.this keyword slot)) ↔
      (∃ old, phraseAt [program] address = some (.expr (.this keyword old))) ∧
        ReceiverSlot [program] program.resolve.2 address slot := by
  have proper : ∀ p ∈ [program], Stmt.ProperAll p := List.forall_mem_singleton.mpr (sourceProper parsed)
  have resolved : ∀ address, phraseAt [program.resolve.1] address = _ := phraseResolved [program]
  obtain ⟨found, errors, _, exactly⟩ := programReports (sourceProper parsed)
  have reported : ∀ mark error, Violation [program] mark error → error ∈ program.resolve.2 := by
    intro mark error violation
    rw [errors]
    exact List.mem_map_of_mem ((exactly mark error).mpr violation)
  constructor
  · intro address name slot
    rw [resolved, phraseLocated]
    cases located : locate [program] address with
    | none => simp
    | some found => exact useExact proper (locatedOf located)
  · intro address keyword slot
    rw [resolved, phraseLocated]
    cases located : locate [program] address with
    | none => simp
    | some found =>
      simp only [Option.map_some, Option.some.injEq]
      exact receiverExact proper (locatedOf located) (reported ⟨address, 0⟩)

/- A name that is declared too late for one use and in the middle of another, and a receiver out of a lambda. -/
def shadowText : String :=
  "\x7b fun f(b) \x7b a = b; \x7d var a = fun () \x7b a; \x7d; \x7d class C \x7b m() \x7b fun () \x7b this; \x7d; \x7d \x7d"

def shadowProgram : Program :=
  [.block [.funDecl ⟨some ⟨"f", 1⟩, [⟨"b", 1⟩], [.expression (.assign ⟨"a", 1⟩ (.var ⟨"b", 1⟩ none) none)], 1⟩,
      .varDecl ⟨"a", 1⟩ (some (.lambda ⟨none, [], [.expression (.var ⟨"a", 1⟩ none)], 1⟩))],
    .classDecl ⟨⟨"C", 1⟩, none, [⟨some ⟨"m", 1⟩, [], [.expression (.lambda
      ⟨none, [], [.expression (.this ⟨"this", 1⟩ none)], 1⟩)], 1⟩], []⟩]

theorem shadowParsed : Source.program shadowText = .ok shadowProgram := readAs (by decide +kernel)

def lateUse : Address := [.item 0, .item 0, .function, .item 0, .item 0, .program 0]

def ownUse : Address := [.item 0, .item 0, .function, .initializer, .item 1, .item 0, .program 0]

def receiverUse : Address := [.item 0, .item 0, .function, .item 0, .item 0, .method 0, .item 1, .program 0]

theorem shadowSlots : Source.program shadowText = .ok shadowProgram ∧
    LexicalSlot [shadowProgram] lateUse "a" none ∧ LexicalSlot [shadowProgram] ownUse "a" (some 2) ∧
    ReceiverSlot [shadowProgram] shadowProgram.resolve.2 receiverUse (some 4) := by
  obtain ⟨names, receivers⟩ := slotsAreLexical shadowParsed
  have late : (phraseAt [shadowProgram.resolve.1] lateUse).bind Phrase.use? = some (⟨"a", 1⟩, none) := by decide +kernel
  have own : (phraseAt [shadowProgram.resolve.1] ownUse).bind Phrase.use? = some (⟨"a", 1⟩, some 2) := by decide +kernel
  have receiver : phraseAt [shadowProgram.resolve.1] receiverUse = some (.expr (.this ⟨"this", 1⟩ (some 4))) := by
    decide +kernel
  exact ⟨shadowParsed, ((names _ _ _).mp late).2, ((names _ _ _).mp own).2, ((receivers _ _ _).mp receiver).2⟩

end Treewalk
