import Treewalk.Proofs.Lexical.Violations

/-! The errors of a walk. A phrase reports what is wrong with itself and then, one after another, what is wrong with
its parts, so the errors of a program are its static violations in the order of the tree. -/
namespace Treewalk

open Walk

section Effects

theorem noteAfter (c : ScopeContext) (rank : Nat) (name : Ident) (fault : ScopeFault) (wrong : Bool) :
    ((if wrong then report name fault else pure () : Walk Unit).after c).errors =
      c.errors ++ (note rank name fault wrong).map Prod.snd := by
  cases wrong with
  | false => exact (List.append_nil _).symm
  | true => rfl

theorem declareErrors (name : Ident) (c : ScopeContext) : ((declare name).after c).errors =
    c.errors ++ (note 0 name .duplicateLocal (taken c name)).map Prod.snd := by
  rw [declareAfter]
  unfold taken
  cases c.scopes with
  | nil => exact (List.append_nil _).symm
  | cons scope outside =>
    rw [List.head?_cons, Option.any_some]
    dsimp only
    split
    · rename_i known
      rw [known]
      rfl
    · rename_i unknown
      rw [Bool.eq_false_iff.mpr unknown]
      exact (List.append_nil _).symm

theorem namedErrors (name : Ident) (place : Place) : (place.named name).context.errors =
    place.context.errors ++ (note 0 name .duplicateLocal (taken place.context name)).map Prod.snd := by
  rw [← declareErrors]
  have kept := congrArg ScopeContext.errors (defineAfter name ((declare name).after place.context))
  exact kept

theorem initializedErrors (name : Ident) (c : ScopeContext) : ((checkInitialized name).after c).errors =
    c.errors ++ (note 0 name .readInOwnInitializer (pending c name)).map Prod.snd := by
  unfold checkInitialized pending after
  rw [getThen]
  cases c.scopes with
  | nil => exact (List.append_nil _).symm
  | cons scope outside => exact noteAfter c 0 name .readInOwnInitializer _

theorem slotAfter (name : Ident) (old : Depth) (c : ScopeContext) : (slot name old).after c = c := by
  unfold slot after
  rw [getThen]
  cases c.scopes.findIdx? (·.contains name.name) <;> rfl

theorem thisErrors (keyword : Ident) (old : Depth) (c : ScopeContext) : ((thisSlot keyword old).after c).errors =
    c.errors ++ (note 0 keyword .thisOutsideClass (!c.inClass) ++
      note 0 keyword .thisInClassMethod (c.inClass && c.function == .classMethod)).map Prod.snd := by
  unfold thisSlot after
  rw [getThen]
  cases c.inClass with
  | false => rfl
  | true =>
    cases c.function == .classMethod with
    | true => rfl
    | false =>
      have kept := congrArg ScopeContext.errors (slotAfter keyword old c)
      exact kept.trans (List.append_nil _).symm

theorem superclassErrors (name : Ident) (superclass : Expr) (c : ScopeContext) :
    ((checkSuperclass name superclass).after c).errors =
      c.errors ++ (ownSuperclass name (some superclass)).map Prod.snd := by
  cases superclass with
  | var superclass slot => exact noteAfter c 1 superclass .inheritsFromItself _
  | _ => exact (List.append_nil _).symm

theorem returnErrors (keyword : Ident) (c : ScopeContext) : ((checkReturn keyword).after c).errors =
    c.errors ++ (note 0 keyword .returnAtTopLevel (c.function == .none)).map Prod.snd :=
  noteAfter c 0 keyword .returnAtTopLevel _

theorem returnValueErrors (keyword : Ident) (c : ScopeContext) : ((checkReturnValue keyword).after c).errors =
    c.errors ++ (note 0 keyword .valueFromInitializer (c.function == .initializer)).map Prod.snd :=
  noteAfter c 0 keyword .valueFromInitializer _

theorem declareAllErrors (earlier params : List Ident) (c : ScopeContext) {outside : List Scope}
    (scopes : c.scopes = Scope.introduce .empty (earlier.map Ident.name) :: outside) :
    ((declareAll params).after c).errors = c.errors ++ (repeated earlier params).map Prod.snd := by
  induction params generalizing earlier c with
  | nil => exact (List.append_nil _).symm
  | cons first rest ih =>
    have named := movesDeclaredAlone first c
    have next : (Walk.after (do declare first; define first) c).scopes =
        Scope.introduce .empty ((earlier ++ [first]).map Ident.name) :: outside := by
      rw [named.scopes, scopes, List.map_append, introduce, Scope.introduce, Scope.introduce, Scope.introduce,
        List.foldl_append]
      rfl
    have known : taken c first = earlier.any (·.name == first.name) := by
      rw [Bool.eq_iff_iff, taken, scopes, List.head?_cons, Option.any_some, containsIntroduce]
      simp [Table.contains]
    have step : (Walk.after (do declare first; define first) c).errors =
        c.errors ++ (note earlier.length first .duplicateLocal (earlier.any (·.name == first.name))).map Prod.snd := by
      have errors := namedErrors first ⟨c, []⟩
      rw [known] at errors
      refine errors.trans (congrArg (c.errors ++ ·) ?_)
      unfold note
      split <;> rfl
    have all := ih (earlier ++ [first]) _ next
    rw [step, List.append_assoc, ← List.map_append] at all
    exact all

end Effects

def Phrase.steps : Phrase → List Step
  | .stmt (.varDecl _ (some _)) => [.initializer]
  | .stmt (.funDecl ⟨some _, _, _, _⟩) => [.function]
  | .expr (.lambda _) => [.function]
  | .stmt (.classDecl ⟨_, superclass, methods, classMethods⟩) =>
    superclass.toList.map (fun _ => .superclass) ++
      ((List.range' 0 methods.length).map .method ++ (List.range' 0 classMethods.length).map .classMethod)
  | phrase => (List.range' 0 phrase.items.length).map .item

inductive Flow (address : Address) (place : Place) (phrase : Phrase) :
    List ScopeError → List Step → List ScopeError → Prop where
  | done {errors} : Flow address place phrase errors [] errors
  | part {step steps place' part errors} (inside : phrase.part? address place step = some (place', part))
      (rest : Flow address place phrase (part.resolve.after place'.context).errors steps errors) :
      Flow address place phrase place'.context.errors (step :: steps) errors

section Flows
variable {address : Address} {place : Place} {phrase : Phrase}

theorem Flow.append {before between after : List ScopeError} {first second : List Step}
    (flow : Flow address place phrase before first between) (next : Flow address place phrase between second after) :
    Flow address place phrase before (first ++ second) after := by
  induction flow with
  | done => exact next
  | part inside rest ih => exact .part inside (ih next)

theorem threadFlow {phrases : List Phrase} {start : Place} {step : Nat → Step} {first : Nat}
    (found : ∀ i, phrase.part? address place (step (first + i)) = (start.thread phrases)[i]?) :
    Flow address place phrase start.context.errors ((List.range' first phrases.length).map step)
      ((Phrase.resolveAll phrases).after start.context).errors := by
  induction phrases generalizing start first with
  | nil => exact .done
  | cons part rest ih =>
    have next : ∀ i, phrase.part? address place (step (first + 1 + i)) =
        ((start.after part.resolve).thread rest)[i]? := by
      intro i
      rw [Nat.add_assoc, Nat.add_comm 1 i]
      exact found (i + 1)
    exact .part (found 0) (ih next)

theorem itemsFlow (own : (phrase.inside address place).context.errors =
      place.context.errors ++ (phrase.own place.context).map Prod.snd)
    (ends : (phrase.resolve.after place.context).errors =
      ((Phrase.resolveAll phrase.items).after (phrase.inside address place).context).errors) :
    Flow address place phrase (place.context.errors ++ (phrase.own place.context).map Prod.snd)
      ((List.range' 0 phrase.items.length).map .item) (phrase.resolve.after place.context).errors := by
  rw [← own, ends]
  refine threadFlow fun i => ?_
  rw [Nat.zero_add]
  rfl

theorem expressionFlow (e : Expr) :
    Flow address place (.expr e) (place.context.errors ++ ((Phrase.expr e).own place.context).map Prod.snd)
      (Phrase.expr e).steps ((Phrase.expr e).resolve.after place.context).errors := by
  have nothing : place.context.errors = place.context.errors ++ ([] : List (Nat × ScopeError)).map Prod.snd :=
    (List.append_nil _).symm
  cases e with
  | var name slot =>
    have ends : ((Phrase.expr (.var name slot)).resolve.after place.context).errors =
        ((Walk.slot name slot).after ((checkInitialized name).after place.context)).errors := rfl
    rw [ends, slotAfter, initializedErrors]
    exact .done
  | this keyword slot =>
    have ends : ((Phrase.expr (.this keyword slot)).resolve.after place.context).errors =
        ((thisSlot keyword slot).after place.context).errors := rfl
    rw [ends, thisErrors]
    exact .done
  | assign name value slot =>
    refine itemsFlow nothing ?_
    have ends : ((Phrase.expr (.assign name value slot)).resolve.after place.context).errors =
        ((Walk.slot name slot).after (value.resolve.after place.context)).errors := rfl
    rw [ends, slotAfter]
    rfl
  | call callee arguments line =>
    refine itemsFlow nothing ?_
    simp only [Phrase.items, Expr.parts, List.map_cons, Phrase.resolveAll, Phrase.resolveExpressions]
    rfl
  | lambda decl =>
    have inside : (Phrase.expr (.lambda decl)).part? address place .function = some (place, .function .lambda decl) := rfl
    have starts : place.context.errors ++ ((Phrase.expr (.lambda decl)).own place.context).map Prod.snd =
        place.context.errors := nothing.symm
    rw [starts]
    exact .part inside .done
  | _ => exact itemsFlow nothing rfl

theorem memberFlow {kind : FunctionDecl → FunctionContext} {decls : List FunctionDecl} {start : Place}
    {step : Nat → Step} (found : ∀ i, phrase.part? address place (step i) =
      (start.thread (decls.map fun f => .function (kind f) f))[i]?) :
    Flow address place phrase start.context.errors ((List.range' 0 decls.length).map step)
      ((Phrase.resolveMembers kind decls).after start.context).errors := by
  have shifted : ∀ i, phrase.part? address place (step (0 + i)) =
      (start.thread (decls.map fun f => .function (kind f) f))[i]? := by
    intro i
    rw [Nat.zero_add]
    exact found i
  have flow := threadFlow shifted
  rwa [List.length_map, Phrase.membersAfter] at flow

theorem classFlow (decl : ClassDecl) : Flow address place (.stmt (.classDecl decl))
    (place.context.errors ++ ((Phrase.stmt (.classDecl decl)).own place.context).map Prod.snd)
    (Phrase.stmt (.classDecl decl)).steps ((Phrase.stmt (.classDecl decl)).resolve.after place.context).errors := by
  obtain ⟨name, superclass, methods, classMethods⟩ := decl
  have named : (place.inClass.named name).context.errors =
      place.context.errors ++ (note 0 name .duplicateLocal (taken place.context name)).map Prod.snd :=
    namedErrors name place.inClass
  have inherited : Flow address place (.stmt (.classDecl ⟨name, superclass, methods, classMethods⟩))
      (place.context.errors ++ (note 0 name .duplicateLocal (taken place.context name) ++
        ownSuperclass name superclass).map Prod.snd)
      (superclass.toList.map fun _ => .superclass)
      (place.ofClass address .receiver ⟨name, superclass, methods, classMethods⟩).context.errors := by
    rw [List.map_append, ← List.append_assoc, ← named]
    cases superclass with
    | none =>
      have nothing : ownSuperclass name none = [] := rfl
      rw [nothing, List.map_nil, List.append_nil]
      exact .done
    | some superclass =>
      have inside : (Phrase.stmt (.classDecl ⟨name, some superclass, methods, classMethods⟩)).part? address place
          .superclass = some ((place.inClass.named name).after (checkSuperclass name superclass), .expr superclass) :=
        rfl
      rw [← superclassErrors]
      exact .part inside .done
  have ofInstances : Flow address place (.stmt (.classDecl ⟨name, superclass, methods, classMethods⟩))
      (place.ofClass address .receiver ⟨name, superclass, methods, classMethods⟩).context.errors
      ((List.range' 0 methods.length).map .method) _ := memberFlow fun i => rfl
  have ofClass : Flow address place (.stmt (.classDecl ⟨name, superclass, methods, classMethods⟩))
      ((place.ofClass address .classSide ⟨name, superclass, methods, classMethods⟩).after
        (FunctionDecl.resolveMethods methods)).context.errors
      ((List.range' 0 classMethods.length).map .classMethod)
      ((Phrase.resolveMembers (fun _ => .classMethod) classMethods).after _).errors := memberFlow fun i => rfl
  rw [← Phrase.methodsAreMembers] at ofInstances
  rw [← Phrase.classMethodsAreMembers] at ofClass
  exact inherited.append (ofInstances.append ofClass)

theorem statementFlow (s : Stmt) (proper : s.Proper) :
    Flow address place (.stmt s) (place.context.errors ++ ((Phrase.stmt s).own place.context).map Prod.snd)
      (Phrase.stmt s).steps ((Phrase.stmt s).resolve.after place.context).errors := by
  have nothing : place.context.errors = place.context.errors ++ ([] : List (Nat × ScopeError)).map Prod.snd :=
    (List.append_nil _).symm
  cases s with
  | varDecl name initializer =>
    have starts := declareErrors name place.context
    cases initializer with
    | none =>
      have ends : ((Phrase.stmt (.varDecl name none)).resolve.after place.context).errors =
          (place.named name).context.errors := rfl
      rw [ends, namedErrors]
      exact .done
    | some initializer =>
      have inside : (Phrase.stmt (.varDecl name (some initializer))).part? address place .initializer =
          some (place.after (declare name), .expr initializer) := rfl
      have ends : ((Phrase.stmt (.varDecl name (some initializer))).resolve.after place.context).errors =
          ((define name).after (initializer.resolve.after ((declare name).after place.context))).errors := rfl
      rw [ends, defineAfter, Phrase.own, ← starts]
      exact .part inside .done
  | block body =>
    refine itemsFlow nothing ?_
    simp only [Phrase.items, Phrase.resolveStatements]
    rfl
  | ifElse condition thenBranch elseBranch =>
    cases elseBranch with
    | none => exact itemsFlow nothing rfl
    | some elseBranch => exact itemsFlow nothing rfl
  | funDecl decl =>
    obtain ⟨name, params, body, line⟩ := decl
    cases name with
    | none => exact absurd rfl proper.1
    | some name =>
      have inside : (Phrase.stmt (.funDecl ⟨some name, params, body, line⟩)).part? address place .function =
          some (place.named name, .function .function ⟨some name, params, body, line⟩) := rfl
      rw [Phrase.own, ← namedErrors]
      exact .part inside .done
  | classDecl decl => exact classFlow decl
  | returnStmt keyword value =>
    cases value with
    | none =>
      have ends : ((Phrase.stmt (.returnStmt keyword none)).resolve.after place.context).errors =
          ((checkReturn keyword).after place.context).errors := rfl
      rw [ends, returnErrors, Phrase.own, Option.isSome_none, Bool.false_and, note, note, if_neg Bool.false_ne_true,
        List.append_nil]
      exact .done
    | some value =>
      refine itemsFlow ?_ rfl
      have checked := returnValueErrors keyword ((checkReturn keyword).after place.context)
      rw [(steadyCheckReturn keyword place.context).function, returnErrors, List.append_assoc, ← List.map_append]
        at checked
      exact checked
  | _ => exact itemsFlow nothing rfl

/- What a phrase reports is what is wrong with itself, and then what its parts report. -/
theorem phraseFlow (proper : phrase.Proper) :
    Flow address place phrase (place.context.errors ++ (phrase.own place.context).map Prod.snd) phrase.steps
      (phrase.resolve.after place.context).errors := by
  cases phrase with
  | program body =>
    refine itemsFlow (List.append_nil _).symm ?_
    simp only [Phrase.items, Phrase.resolveStatements]
    rfl
  | stmt s => exact statementFlow s proper
  | expr e => exact expressionFlow e
  | function kind decl =>
    obtain ⟨name, params, body, line⟩ := decl
    refine itemsFlow ?_ ?_
    · exact declareAllErrors [] params ((place.inFunction kind).enter ⟨address, .parameters⟩ .empty).context rfl
    · simp only [Phrase.items, Phrase.resolveStatements]
      rfl

end Flows

section Orders

theorem indexedSorted (step : Nat → Step) (sorted : ∀ i j, i < j → (step i).Before (step j)) (count : Nat) :
    ((List.range' 0 count).map step).Pairwise Step.Before := by
  have increasing : (List.range' 0 count).Pairwise (· < ·) := List.pairwise_lt_range'
  rw [List.pairwise_map]
  exact increasing.imp (sorted _ _)

theorem stepsSorted (phrase : Phrase) : phrase.steps.Pairwise Step.Before := by
  have items : ((List.range' 0 phrase.items.length).map Step.item).Pairwise Step.Before :=
    indexedSorted .item (fun i j less => less) _
  unfold Phrase.steps
  split
  · exact List.pairwise_singleton _ _
  · exact List.pairwise_singleton _ _
  · exact List.pairwise_singleton _ _
  · rename_i name superclass methods classMethods
    have before : ∀ first ∈ superclass.toList.map fun _ => Step.superclass,
        ∀ index, first.Before (.method index) ∧ first.Before (.classMethod index) := by
      intro first member index
      obtain ⟨_, _, rfl⟩ := List.mem_map.mp member
      exact ⟨trivial, trivial⟩
    refine List.pairwise_append.mpr ⟨?_, List.pairwise_append.mpr ⟨?_, ?_, ?_⟩, ?_⟩
    · cases superclass with
      | none => exact .nil
      | some superclass => exact List.pairwise_singleton _ _
    · exact indexedSorted .method (fun i j less => less) _
    · exact indexedSorted .classMethod (fun i j less => less) _
    · intro first inMethods second inClassMethods
      obtain ⟨i, _, rfl⟩ := List.mem_map.mp inMethods
      obtain ⟨j, _, rfl⟩ := List.mem_map.mp inClassMethods
      trivial
    · intro first inherited second later
      obtain inMethods | inClassMethods := List.mem_append.mp later
      · obtain ⟨i, _, rfl⟩ := List.mem_map.mp inMethods
        exact (before first inherited i).1
      · obtain ⟨i, _, rfl⟩ := List.mem_map.mp inClassMethods
        exact (before first inherited i).2
  · exact items

theorem indexed {items : List α} {index : Nat} {item : α} (found : items[index]? = some item) (step : Nat → Step) :
    step index ∈ (List.range' 0 items.length).map step := by
  obtain ⟨less, _⟩ := List.getElem?_eq_some_iff.mp found
  exact List.mem_map_of_mem (List.mem_range'_1.mpr ⟨Nat.zero_le _, by omega⟩)

theorem stepsComplete {phrase part : Phrase} {step : Step} (child : phrase.child? step = some part) :
    step ∈ phrase.steps := by
  obtain ⟨_, inside⟩ := childInside child
  cases inside with
  | item =>
    have found : phrase.items[_]? = some part := child
    have member := indexed found .item
    cases phrase with
    | stmt s =>
      by_cases declaring : s.Declaring
      · exact absurd declaring (undeclaringItems (List.mem_of_getElem? found))
      · cases s with
        | varDecl name initializer => exact absurd trivial declaring
        | funDecl decl => exact absurd trivial declaring
        | classDecl decl => exact absurd trivial declaring
        | _ => exact member
    | expr e =>
      cases e with
      | lambda decl => cases found
      | _ => exact member
    | _ => exact member
  | initializer => exact List.mem_singleton_self _
  | declared => exact List.mem_singleton_self _
  | lambda => exact List.mem_singleton_self _
  | superclass => exact List.mem_append_left _ (List.mem_singleton_self _)
  | @method decl _ _ _ member =>
    obtain ⟨name, superclass, methods, classMethods⟩ := decl
    exact List.mem_append_right _ (List.mem_append_left _ (indexed member .method))
  | @classMethod decl _ _ _ member =>
    obtain ⟨name, superclass, methods, classMethods⟩ := decl
    exact List.mem_append_right _ (List.mem_append_right _ (indexed member .classMethod))

theorem noteSorted (rank : Nat) (name : Ident) (fault : ScopeFault) (wrong : Bool) :
    (note rank name fault wrong).Pairwise (·.1 < ·.1) := by
  unfold note
  split
  · exact List.pairwise_singleton _ _
  · exact .nil

theorem repeatedSorted (earlier params : List Ident) : (repeated earlier params).Pairwise (·.1 < ·.1) := by
  induction params generalizing earlier with
  | nil => exact .nil
  | cons first rest ih =>
    refine List.pairwise_append.mpr ⟨noteSorted _ _ _ _, ih _, ?_⟩
    intro one noted two later
    obtain ⟨_, same, _⟩ := memNote.mp noted
    obtain ⟨index, _, _, rank, _⟩ := memRepeated.mp later
    rw [List.length_append, List.length_singleton] at rank
    omega

theorem ownSorted (phrase : Phrase) (c : ScopeContext) : (phrase.own c).Pairwise (·.1 < ·.1) := by
  unfold Phrase.own
  split
  · exact noteSorted _ _ _ _
  · exact noteSorted _ _ _ _
  · refine List.pairwise_append.mpr ⟨noteSorted _ _ _ _, ?_, ?_⟩
    · unfold ownSuperclass
      split
      · exact noteSorted _ _ _ _
      · exact .nil
    · intro one noted two later
      obtain ⟨_, first, _⟩ := memNote.mp noted
      unfold ownSuperclass at later
      split at later
      · obtain ⟨_, second, _⟩ := memNote.mp later
        omega
      · cases later
  · refine List.pairwise_append.mpr ⟨noteSorted _ _ _ _, noteSorted _ _ _ _, ?_⟩
    intro one noted two later
    obtain ⟨outside, _⟩ := memNote.mp noted
    obtain ⟨within, _⟩ := memNote.mp later
    rw [beq_iff_eq.mp outside, Bool.and_eq_true] at within
    cases within.2
  · exact noteSorted _ _ _ _
  · refine List.pairwise_append.mpr ⟨noteSorted _ _ _ _, noteSorted _ _ _ _, ?_⟩
    intro one noted two later
    obtain ⟨outside, _⟩ := memNote.mp noted
    obtain ⟨within, _⟩ := memNote.mp later
    rw [Bool.not_eq_true'] at outside
    rw [outside] at within
    cases within
  · exact repeatedSorted [] _
  · exact .nil

end Orders

end Treewalk
