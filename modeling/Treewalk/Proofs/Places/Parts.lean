import Treewalk.Proofs.Places

/-! The walk over a phrase is the walk over its parts: what resolving makes of a part is what stands at the same
step of the resolved whole, and no error found at a part is lost. -/
namespace Treewalk

open Walk

namespace Place

theorem threadFound {phrases : List Phrase} {place place' : Place} {index : Nat} {part : Phrase}
    (found : (place.thread phrases)[index]? = some (place', part)) :
    phrases[index]? = some part ∧ place'.sites = place.sites ∧
    Introduces ((phrases.take index).flatMap Phrase.declares) place.context place'.context := by
  induction phrases generalizing place index with
  | nil => simp [thread] at found
  | cons first rest ih =>
    cases index with
    | zero =>
      have same : place = place' ∧ first = part := by simpa [thread] using found
      obtain ⟨rfl, rfl⟩ := same
      exact ⟨rfl, rfl, .refl place.context⟩
    | succ index =>
      obtain ⟨there, sites, moved⟩ := ih (by simpa [thread] using found)
      exact ⟨by simpa using there, sites, (first.resolveMoves place.context).trans moved⟩

theorem threadErrors {phrases : List Phrase} {place place' : Place} {index : Nat} {part : Phrase}
    (found : (place.thread phrases)[index]? = some (place', part)) :
    (part.resolve.after place'.context).errors <+: ((Phrase.resolveAll phrases).after place.context).errors := by
  induction phrases generalizing place index with
  | nil => simp [thread] at found
  | cons first rest ih =>
    cases index with
    | zero =>
      have same : place = place' ∧ first = part := by simpa [thread] using found
      obtain ⟨rfl, rfl⟩ := same
      -- what follows the first part only adds to its errors
      have later : ∀ phrases c, c.errors <+: ((Phrase.resolveAll phrases).after c).errors := by
        intro phrases
        induction phrases with
        | nil => exact fun c => List.prefix_rfl
        | cons next rest ih => exact fun c => (next.resolveMoves c).errors.trans (ih (next.resolve.after c))
      exact later rest (first.resolve.after place.context)
    | succ index => exact ih (by simpa [thread] using found)

theorem threadResolved (phrases : List Phrase) (place : Place) (index : Nat) :
    ((Phrase.resolveAll phrases).result place.context)[index]? =
      (place.thread phrases)[index]?.map fun found => found.2.resolve.result found.1.context := by
  induction phrases generalizing place index with
  | nil =>
    change ([] : List Phrase)[index]? = Option.map _ ([] : List (Place × Phrase))[index]?
    simp only [List.getElem?_nil, Option.map_none]
  | cons first rest ih =>
    cases index with
    | zero => rfl
    | succ index => exact ih (place.after first.resolve) index

end Place

namespace Phrase

theorem resolveStatements (body : List Stmt) :
    resolveAll (body.map .stmt) = List.map .stmt <$> Stmt.resolveList body := by
  induction body with
  | nil => rfl
  | cons s rest ih =>
    simp only [List.map_cons, resolveAll, ih, resolve, Stmt.resolveList, bind_assoc, pure_bind, map_eq_pure_bind]

theorem resolveExpressions (es : List Expr) :
    resolveAll (es.map .expr) = List.map .expr <$> Expr.resolveList es := by
  induction es with
  | nil => rfl
  | cons e rest ih =>
    simp only [List.map_cons, resolveAll, ih, resolve, Expr.resolveList, bind_assoc, pure_bind, map_eq_pure_bind]

theorem itemsResolved (address : Address) (place : Place) (phrase : Phrase) :
    (phrase.resolve.result place.context).items =
      (resolveAll phrase.items).result (phrase.inside address place).context := by
  cases phrase with
  | program body =>
    simp only [items, resolveStatements]
    rfl
  | function kind decl =>
    obtain ⟨name, params, body, line⟩ := decl
    simp only [items, resolveStatements]
    rfl
  | expr e =>
    cases e with
    | call callee arguments line =>
      simp only [items, Expr.parts, List.map_cons, resolveAll, resolveExpressions]
      rfl
    | _ => rfl
  | stmt s =>
    cases s with
    | block body =>
      simp only [items, resolveStatements]
      rfl
    | varDecl name initializer => cases initializer <;> rfl
    | ifElse condition thenBranch elseBranch => cases elseBranch <;> rfl
    | returnStmt keyword value => cases value <;> rfl
    | funDecl decl =>
      obtain ⟨name, params, body, line⟩ := decl
      cases name <;> rfl
    | _ => rfl

theorem itemFound (address : Address) {place : Place} {phrase : Phrase} {index : Nat} {node : Phrase}
    (here : (phrase.resolve.result place.context).items[index]? = some node) :
    ∃ place' part, phrase.part? address place (.item index) = some (place', part) ∧
      part.resolve.result place'.context = node := by
  rw [itemsResolved address, Place.threadResolved] at here
  obtain ⟨⟨place', part⟩, found, same⟩ := Option.map_eq_some_iff.mp here
  exact ⟨place', part, found, same⟩

def resolveMembers (kind : FunctionDecl → FunctionContext) : List FunctionDecl → Walk (List FunctionDecl)
  | [] => return []
  | f :: rest => return (← f.resolve (kind f)) :: (← resolveMembers kind rest)

theorem methodsAreMembers (decls : List FunctionDecl) :
    FunctionDecl.resolveMethods decls = resolveMembers FunctionDecl.methodContext decls := by
  induction decls with
  | nil => rfl
  | cons f rest ih => simp only [FunctionDecl.resolveMethods, resolveMembers, ih]

theorem classMethodsAreMembers (decls : List FunctionDecl) :
    FunctionDecl.resolveClassMethods decls = resolveMembers (fun _ => .classMethod) decls := by
  induction decls with
  | nil => rfl
  | cons f rest ih => simp only [FunctionDecl.resolveClassMethods, resolveMembers, ih]

theorem membersAfter (kind : FunctionDecl → FunctionContext) (decls : List FunctionDecl) (c : ScopeContext) :
    (resolveAll (decls.map fun f => .function (kind f) f)).after c = (resolveMembers kind decls).after c := by
  induction decls generalizing c with
  | nil => rfl
  | cons f rest ih => exact ih ((f.resolve (kind f)).after c)

theorem memberFound {kind : FunctionDecl → FunctionContext} {decls : List FunctionDecl} {place : Place} {index : Nat}
    {resolved : FunctionDecl}
    (here : ((resolveMembers kind decls).result place.context)[index]? = some resolved) :
    ∃ place' f, (place.thread (decls.map fun f => .function (kind f) f))[index]? =
        some (place', .function (kind f) f) ∧ (f.resolve (kind f)).result place'.context = resolved := by
  induction decls generalizing place index with
  | nil =>
    change ([] : List FunctionDecl)[index]? = some resolved at here
    simp only [List.getElem?_nil] at here
    cases here
  | cons f rest ih =>
    cases index with
    | zero => exact ⟨place, f, rfl, Option.some.inj here⟩
    | succ index =>
      have next : ((resolveMembers kind rest).result
        (place.after (Phrase.function (kind f) f).resolve).context)[index]? = some resolved := here
      exact ih next

theorem itemsErrors (address : Address) (place : Place) (phrase : Phrase) :
    ((resolveAll phrase.items).after (phrase.inside address place).context).errors <+:
      (phrase.resolve.after place.context).errors := by
  cases phrase with
  | program body =>
    simp only [items, resolveStatements]
    exact List.prefix_rfl
  | function kind decl =>
    obtain ⟨name, params, body, line⟩ := decl
    simp only [items, resolveStatements]
    exact List.prefix_rfl
  | expr e =>
    cases e with
    | call callee arguments line =>
      simp only [items, Expr.parts, List.map_cons, resolveAll, resolveExpressions]
      exact List.prefix_rfl
    | var name depth => exact ((Expr.var name depth).resolveSteady place.context).errors
    | this keyword depth => exact ((Expr.this keyword depth).resolveSteady place.context).errors
    | lambda decl => exact ((Expr.lambda decl).resolveSteady place.context).errors
    | assign name value depth => exact (steadySlot name depth (value.resolve.after place.context)).errors
    | _ => exact List.prefix_rfl
  | stmt s =>
    cases s with
    | block body =>
      simp only [items, resolveStatements]
      exact List.prefix_rfl
    | varDecl name initializer => exact ((Stmt.varDecl name initializer).resolveMoves place.context).errors
    | ifElse condition thenBranch elseBranch => cases elseBranch <;> exact List.prefix_rfl
    | returnStmt keyword value =>
      cases value with
      | none => exact (steadyCheckReturn keyword place.context).errors
      | some value => exact List.prefix_rfl
    | funDecl decl => exact ((Stmt.funDecl decl).resolveMoves place.context).errors
    | classDecl decl => exact ((Stmt.classDecl decl).resolveMoves place.context).errors
    | _ => exact List.prefix_rfl

theorem partErrors {address : Address} {place place' : Place} {phrase part : Phrase} {step : Step}
    (found : phrase.part? address place step = some (place', part)) :
    (part.resolve.after place'.context).errors <+: (phrase.resolve.after place.context).errors := by
  unfold part? at found
  split at found
  · exact (Place.threadErrors found).trans (itemsErrors address place _)
  · cases found
    rename_i name initializer
    have ends : ((stmt (.varDecl name (some initializer))).resolve.after place.context) =
        (define name).after (initializer.resolve.after ((declare name).after place.context)) := rfl
    rw [ends, defineAfter]
    exact List.prefix_rfl
  · cases found
    exact List.prefix_rfl
  · cases found
    exact List.prefix_rfl
  · cases found
    rename_i name superclass methods classMethods
    exact (steadyInScope .ofThis ((FunctionDecl.resolveMethodsSteady methods).bind fun _ =>
      (FunctionDecl.resolveClassMethodsSteady classMethods)) _).errors
  · rename_i decl index
    obtain ⟨name, superclass, methods, classMethods⟩ := decl
    have inMethods := Place.threadErrors found
    rw [membersAfter, ← methodsAreMembers] at inMethods
    exact inMethods.trans (FunctionDecl.resolveClassMethodsSteady classMethods _).errors
  · rename_i decl index
    obtain ⟨name, superclass, methods, classMethods⟩ := decl
    have inMethods := Place.threadErrors found
    rw [membersAfter (fun _ => .classMethod), ← classMethodsAreMembers] at inMethods
    exact inMethods
  · cases found

end Phrase
end Treewalk
