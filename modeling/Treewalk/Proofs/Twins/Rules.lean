import Treewalk.Proofs.Restored
import Treewalk.Proofs.Twins.Actions

/-! Like code is run alike: the rules of evaluation keep two machines side by side, and so do whole programs. -/
namespace Treewalk

open World

structure Mates (ρ : Spelling) (r r' : Evaluator) : Prop where
  eval : ∀ {w m m' layers e e'}, Twins ρ w m m' → Level w m m' layers → Expr.Like ρ layers e e' →
    Tied ρ w m m' (r.eval e) (r'.eval e') Same
  exec : ∀ {w m m' layers s s'}, Twins ρ w m m' → Level w m m' layers → Stmt.Like ρ layers s s' →
    Tied ρ w m m' (r.exec s) (r'.exec s') Same
  call : ∀ {w m m' callee callee'}, Twins ρ w m m' → CalleeLike ρ w callee callee' → ∀ arguments line,
    Tied ρ w m m' (r.call callee arguments line) (r'.call callee' arguments line) Same

theorem relInsert {α : Type} {R : α → α → Prop} {a a' : α} {t t' : Table α}
    (all : ∀ name, Option.Rel R (t.find? name) (t'.find? name)) (key : String) (new : R a a') (name : String) :
    Option.Rel R ((t.insert key a).find? name) ((t'.insert key a').find? name) := by
  rw [Table.findInsert, Table.findInsert]
  split
  · exact .some new
  · exact all name

theorem methodTables {ρ : Spelling} {layers : List Layer} {R : Function → Function → Prop} {closure closure' : FrameId}
    {isInitializer : FunctionDecl → Bool} {decls decls' : List FunctionDecl}
    (like : FunctionDecl.LikeAll ρ layers decls decls')
    (member : ∀ {decl decl'}, FunctionDecl.Like ρ layers decl decl' →
      R ⟨decl, closure, isInitializer decl⟩ ⟨decl', closure', isInitializer decl'⟩) (name : String) :
    Option.Rel R ((methodTable closure isInitializer decls).find? name)
      ((methodTable closure' isInitializer decls').find? name) := by
  -- What was inserted before is related whatever the tables are.
  have along : ∀ (t t' : Table Function), (∀ name, Option.Rel R (t.find? name) (t'.find? name)) → ∀ name, Option.Rel R
      ((decls.foldl (fun table decl => table.insert decl.label ⟨decl, closure, isInitializer decl⟩) t).find? name)
      ((decls'.foldl (fun table decl => table.insert decl.label ⟨decl, closure', isInitializer decl⟩) t').find? name) := by
    induction decls generalizing decls' with
    | nil =>
      cases like
      exact fun t t' all => all
    | cons decl decls ih =>
      obtain ⟨decl', rest', rfl, head, tail⟩ := like
      intro t t' all
      have label : decl'.label = decl.label := by rw [FunctionDecl.label, (likeNamed head).1, FunctionDecl.label]
      refine ih tail _ _ ?_
      dsimp only
      rw [label]
      exact relInsert all decl.label (member head)
  exact along _ _ (fun _ => .none) name

theorem closureLike {ρ : Spelling} {w : World} {layers : List Layer} {id twin : FrameId} {decl decl' : FunctionDecl}
    (found : w id = some ⟨layers, twin⟩) (like : decl.Like ρ layers decl') :
    CallableLike ρ w (.function ⟨decl, id, false⟩) (.function ⟨decl', twin, false⟩) := by
  refine .function ⟨rfl, layers, found, like, ?_⟩
  intro initializer
  cases initializer

theorem classMade {ρ : Spelling} {w : World} {layers : List Layer} {decl decl' : ClassDecl} (like : decl.Like ρ layers decl')
    {environment environment' inner inner' : FrameId} (here : w environment = some ⟨layers, environment'⟩)
    (inside : w inner = some ⟨.shared false :: layers, inner'⟩) (superclass : Option ClassId) :
    ClassLike ρ w
      ⟨decl.name.name, superclass, methodTable environment FunctionDecl.isInitializer decl.methods,
        methodTable inner (fun _ => false) decl.classMethods⟩
      ⟨decl'.name.name, superclass, methodTable environment' FunctionDecl.isInitializer decl'.methods,
        methodTable inner' (fun _ => false) decl'.classMethods⟩ := by
  obtain ⟨name, e, methods, classMethods⟩ := decl
  obtain ⟨_, methods', classMethods', rfl, _, methodsLike, classMethodsLike⟩ := like
  refine ⟨rfl, rfl, methodTables methodsLike ?_, methodTables classMethodsLike ?_⟩
  · intro f f' code
    refine ⟨?_, layers, here, code⟩
    simp only [FunctionDecl.isInitializer, FunctionDecl.label, (likeNamed code).1]
  · intro f f' code
    refine ⟨rfl, _, inside, code, ?_⟩
    intro initializer
    cases initializer

namespace Mates
variable {ρ : Spelling} {w : World} {m m' : Machine} {layers : List Layer} {r r' : Evaluator} (h : Mates ρ r r')
  (t : Twins ρ w m m')
include h t

theorem evalAll (level : Level w m m' layers) {es es' : List Expr} (like : Expr.LikeAll ρ layers es es') :
    Tied ρ w m m' (r.evalAll es) (r'.evalAll es') Same := by
  induction es generalizing w m m' es' with
  | nil =>
    cases like
    exact .pure t rfl
  | cons e rest ih =>
    obtain ⟨e', rest', rfl, head, tail⟩ := like
    refine (h.eval t level head).next ?_
    intro v n n' a after
    refine (ih after.twins (after.level level) tail).next ?_
    intro u l l' as after'
    exact .pure after'.twins rfl

theorem execAll (level : Level w m m' layers) {body body' : List Stmt} (like : Stmt.LikeAll ρ layers body body') :
    Tied ρ w m m' (r.execAll body) (r'.execAll body') Same := by
  induction body generalizing w m m' body' with
  | nil =>
    cases like
    exact .pure t rfl
  | cons s rest ih =>
    obtain ⟨s', rest', rfl, head, tail⟩ := like
    refine (h.exec t level head).next ?_
    intro v n n' completion after
    cases completion with
    | normal => exact ih after.twins (after.level level) tail
    | returned value => exact .pure after.twins rfl

theorem invoke {f f' : Function} (like : FunctionLike ρ w f f') (arguments : List Value) (line : Nat) :
    Tied ρ w m m' (r.invoke f arguments line) (r'.invoke f' arguments line) Same := by
  obtain ⟨initializes, layers, found, code, bound⟩ := id like
  obtain ⟨⟨name, params, body, declLine⟩, closure, isInitializer⟩ := f
  obtain ⟨decl', closure', isInitializer'⟩ := f'
  obtain ⟨renamed, renamedBody, body', rfl, bodyLike⟩ := code
  cases initializes
  refine (Tied.newFrame t found renamed).bind ?_
  intro v n n' id twin after linked
  refine (Tied.bindParameters after.twins ⟨_, linked, rfl⟩ params arguments).next ?_
  intro v₂ n₂ n₂' _ after₂
  refine (Tied.inNewFrame after₂.twins (after₂.le _ _ linked) renamedBody fun _ _ _ _ twins level =>
    h.execAll twins level bodyLike).next ?_
  intro v₃ n₃ n₃' completion after₃
  cases isInitializer with
  | true => exact Tied.receiver after₃.twins (like.later ((after.trans after₂).trans after₃).le) rfl line
  | false =>
    cases completion with
    | normal => exact .pure after₃.twins rfl
    | returned value => exact .pure after₃.twins rfl

theorem construct (cls : ClassId) (arguments : List Value) (line : Nat) :
    Tied ρ w m m' (r.construct cls arguments line) (r'.construct cls arguments line) Same := by
  refine (Tied.newInstance t cls).next ?_
  intro v n n' id after
  refine (Tied.findMethod after.twins cls "init").bind ?_
  intro v₂ n₂ n₂' found found' after₂ likes
  cases likes with
  | none => exact .pure after₂.twins rfl
  | some like =>
    refine (Tied.bindMethod after₂.twins like id).bind ?_
    intro v₃ n₃ n₃' f f' after₃ bound
    refine (h.invoke after₃.twins bound arguments line).next ?_
    intro v₄ n₄ n₄' _ after₄
    exact .pure after₄.twins rfl

theorem start {callee callee' : Callee} (like : CalleeLike ρ w callee callee') (arguments : List Value) (line : Nat) :
    Tied ρ w m m' (r.start callee arguments line) (r'.start callee' arguments line) Same := by
  cases like with
  | construct => exact h.construct t _ arguments line
  | callable like =>
    cases like with
    | function like => exact h.invoke t like arguments line
    | native => exact Tied.callNative t _ arguments line

theorem callRule {callee callee' : Callee} (like : CalleeLike ρ w callee callee') (arguments : List Value) (line : Nat) :
    Tied ρ w m m' (r.callRule callee arguments line) (r'.callRule callee' arguments line) Same := by
  unfold Tied Evaluator.callRule
  dsimp only
  rw [t.arity like, t.callDepth]
  split
  · exact Tied.fault t line _
  · split
    · exact Tied.fault t line _
    · have counted : Twins ρ w { m with callDepth := m.callDepth + 1 } { m' with callDepth := m'.callDepth + 1 } :=
        { t with callDepth := congrArg (· + 1) t.callDepth }
      exact Tied.counted (h.start counted like arguments line)

theorem evalRule (level : Level w m m' layers) {e e' : Expr} (like : e.Like ρ layers e') :
    Tied ρ w m m' (r.evalRule e) (r'.evalRule e') Same := by
  cases e with
  | literal value line =>
    cases like
    exact .pure t rfl
  | grouping inner =>
    obtain ⟨inner', rfl, like⟩ := like
    exact h.eval t level like
  | unary op right line =>
    obtain ⟨right', rfl, like⟩ := like
    refine (h.eval t level like).next ?_
    intro v n n' a after
    exact Tied.ofExcept after.twins _
  | binary left op right line =>
    obtain ⟨left', right', rfl, first, second⟩ := like
    refine (h.eval t level first).next ?_
    intro v n n' a after
    refine (h.eval after.twins (after.level level) second).next ?_
    intro v₂ n₂ n₂' b after₂
    exact Tied.ofExcept after₂.twins _
  | logical left op right line =>
    obtain ⟨left', right', rfl, first, second⟩ := like
    refine (h.eval t level first).next ?_
    intro v n n' a after
    split
    · exact .pure after.twins rfl
    · exact h.eval after.twins (after.level level) second
  | ternary condition thenBranch elseBranch line =>
    obtain ⟨condition', thenBranch', elseBranch', rfl, first, second, third⟩ := like
    refine (h.eval t level first).next ?_
    intro v n n' a after
    split
    · exact h.eval after.twins (after.level level) second
    · exact h.eval after.twins (after.level level) third
  | var name slot =>
    obtain ⟨name', slot', rfl, use⟩ := like
    exact Tied.lookUp t level use
  | this keyword slot =>
    obtain ⟨keyword', slot', rfl, use⟩ := like
    exact Tied.lookUp t level use
  | assign name value slot =>
    obtain ⟨name', value', slot', rfl, use, source⟩ := like
    refine (h.eval t level source).next ?_
    intro v n n' a after
    refine (Tied.assign after.twins (after.level level) use a).next ?_
    intro v₂ n₂ n₂' _ after₂
    exact .pure after₂.twins rfl
  | call callee arguments line =>
    obtain ⟨callee', arguments', rfl, first, second⟩ := like
    refine (h.eval t level first).next ?_
    intro v n n' a after
    refine (Tied.callee after.twins a).bind ?_
    intro v₂ n₂ n₂' target target' after₂ targets
    cases targets with
    | none => exact Tied.fault after₂.twins line .notCallable
    | some target =>
      refine (h.evalAll after₂.twins (after₂.level (after.level level)) second).next ?_
      intro v₃ n₃ n₃' values after₃
      exact h.call after₃.twins (target.later after₃.le) values line
  | get object name =>
    obtain ⟨object', rfl, like⟩ := like
    refine (h.eval t level like).next ?_
    intro v n n' a after
    exact Tied.property after.twins a name
  | set object name value =>
    obtain ⟨object', value', rfl, first, second⟩ := like
    refine (h.eval t level first).next ?_
    intro v n n' a after
    cases a with
    | instanceObject id =>
      refine (h.eval after.twins (after.level level) second).next ?_
      intro v₂ n₂ n₂' b after₂
      refine (Tied.setField after₂.twins id name.name b).next ?_
      intro v₃ n₃ n₃' _ after₃
      exact .pure after₃.twins rfl
    | _ => exact Tied.fault after.twins name.line .noFields
  | lambda decl =>
    obtain ⟨decl', rfl, like⟩ := like
    refine (Tied.environment t level).bind ?_
    intro v n n' id twin after found
    exact Tied.newFunction after.twins (closureLike found like)

theorem superclass (level : Level w m m' layers) {e e' : Option Expr} (like : ClassDecl.LikeSuperclass ρ layers e e') :
    Tied ρ w m m' (r.superclass e) (r'.superclass e') Same := by
  cases e with
  | none =>
    cases like
    exact .pure t rfl
  | some e =>
    obtain ⟨e', rfl, like⟩ := like
    refine (h.eval t level like).next ?_
    intro v n n' a after
    rw [Expr.likeLine ρ like]
    cases a with
    | classObject id => exact .pure after.twins rfl
    | _ => exact Tied.fault after.twins e.line _

theorem declareClass (level : Level w m m' layers) {decl decl' : ClassDecl} (like : decl.Like ρ layers decl')
    {renamed : Bool} (spelled : Layer.innermost layers = some renamed)
    (kept : ρ.spell renamed decl.name.name = decl.name.name) :
    Tied ρ w m m' (r.declareClass decl) (r'.declareClass decl') Same := by
  obtain ⟨superclass', superclassLike, same⟩ : ∃ e', ClassDecl.LikeSuperclass ρ layers decl.superclass e' ∧
      decl'.superclass = e' := by
    obtain ⟨name, e, methods, classMethods⟩ := decl
    obtain ⟨e', _, _, rfl, likes, _⟩ := like
    exact ⟨e', likes, rfl⟩
  have name : decl'.name = decl.name := by
    obtain ⟨name, e, methods, classMethods⟩ := decl
    obtain ⟨_, _, _, rfl, _⟩ := like
    rfl
  unfold Evaluator.declareClass
  rw [same]
  refine (h.superclass t level superclassLike).next ?_
  intro v n n' a after
  refine (Tied.environment after.twins (after.level level)).bind ?_
  intro v₂ n₂ n₂' id twin after₂ found
  refine (Tied.newFrame after₂.twins found false).bind ?_
  intro v₃ n₃ n₃' inner inner' after₃ inside
  refine (Tied.newClass after₃.twins (classMade like (after₃.le _ _ found) inside a)).next ?_
  intro v₄ n₄ n₄' cls after₄
  have here := ((after.trans after₂).trans (after₃.trans after₄)).level level
  have defined := Tied.defineHere after₄.twins here spelled decl.name.name cls
  rw [kept] at defined
  rw [name]
  exact defined

theorem execRule (level : Level w m m' layers) {s s' : Stmt} (like : s.Like ρ layers s') :
    Tied ρ w m m' (r.execRule s) (r'.execRule s') Same := by
  cases s with
  | expression e =>
    obtain ⟨e', rfl, like⟩ := like
    refine (h.eval t level like).next ?_
    intro v n n' a after
    refine (Tied.setLast after.twins a).next ?_
    intro v₂ n₂ n₂' _ after₂
    exact .pure after₂.twins rfl
  | print e =>
    obtain ⟨e', rfl, like⟩ := like
    have line := Expr.likeLine ρ like
    refine (h.eval t level like).next ?_
    intro v n n' a after
    rw [line]
    refine (Tied.write after.twins a e.line).next ?_
    intro v₂ n₂ n₂' _ after₂
    exact .pure after₂.twins rfl
  | varDecl name initializer =>
    cases initializer with
    | none =>
      obtain ⟨renamed, spelled, rfl⟩ := like
      have nothing : Tied ρ w m m' (pure Value.nil) (pure Value.nil) Same := .pure t rfl
      refine nothing.next ?_
      intro v n n' a after
      refine (Tied.defineHere after.twins (after.level level) spelled name.name a).next ?_
      intro v₂ n₂ n₂' _ after₂
      exact .pure after₂.twins rfl
    | some e =>
      obtain ⟨renamed, e', spelled, rfl, like⟩ := like
      refine (h.eval t level like).next ?_
      intro v n n' a after
      refine (Tied.defineHere after.twins (after.level level) spelled name.name a).next ?_
      intro v₂ n₂ n₂' _ after₂
      exact .pure after₂.twins rfl
  | block body =>
    obtain ⟨renamed, body', rfl, like⟩ := like
    refine (Tied.environment t level).bind ?_
    intro v n n' id twin after found
    exact Tied.inNewFrame after.twins found renamed fun _ _ _ _ twins level => h.execAll twins level like
  | ifElse condition thenBranch elseBranch =>
    cases elseBranch with
    | none =>
      obtain ⟨condition', thenBranch', rfl, first, second⟩ := like
      refine (h.eval t level first).next ?_
      intro v n n' a after
      split
      · exact h.exec after.twins (after.level level) second
      · exact .pure after.twins rfl
    | some elseBranch =>
      obtain ⟨condition', thenBranch', elseBranch', rfl, first, second, third⟩ := like
      refine (h.eval t level first).next ?_
      intro v n n' a after
      split
      · exact h.exec after.twins (after.level level) second
      · exact h.exec after.twins (after.level level) third
  | whileLoop condition body =>
    obtain ⟨condition', body', rfl, first, second⟩ := like
    refine (h.eval t level first).next ?_
    intro v n n' a after
    split
    · refine (h.exec after.twins (after.level level) second).next ?_
      intro v₂ n₂ n₂' completion after₂
      cases completion with
      | normal => exact h.exec after₂.twins (after₂.level (after.level level)) ⟨condition', body', rfl, first, second⟩
      | returned value => exact .pure after₂.twins rfl
    · exact .pure after.twins rfl
  | funDecl decl =>
    obtain ⟨decl', renamed, rfl, spelled, kept, like⟩ := like
    have label : decl'.label = decl.label := by rw [FunctionDecl.label, (likeNamed like).1, FunctionDecl.label]
    refine (Tied.environment t level).bind ?_
    intro v n n' id twin after found
    refine (Tied.newFunction after.twins (closureLike found like)).next ?_
    intro v₂ n₂ n₂' function after₂
    have defined := Tied.defineHere after₂.twins (after₂.level (after.level level)) spelled decl.label function
    rw [kept] at defined
    rw [label]
    refine defined.next ?_
    intro v₃ n₃ n₃' _ after₃
    exact .pure after₃.twins rfl
  | classDecl decl =>
    obtain ⟨decl', renamed, rfl, spelled, kept, like⟩ := like
    refine (h.declareClass t level like spelled kept).next ?_
    intro v n n' _ after
    exact .pure after.twins rfl
  | returnStmt keyword value =>
    cases value with
    | none =>
      cases like
      exact .pure t rfl
    | some value =>
      obtain ⟨value', rfl, like⟩ := like
      refine (h.eval t level like).next ?_
      intro v n n' a after
      exact .pure after.twins rfl

theorem execProgram (level : Level w m m' layers) {program program' : Program}
    (like : Stmt.LikeAll ρ layers program program') :
    Tied ρ w m m' (r.execProgram program) (r'.execProgram program') Same := by
  induction program generalizing w m m' program' with
  | nil =>
    cases like
    exact .pure t rfl
  | cons s rest ih =>
    obtain ⟨s', rest', rfl, head, tail⟩ := like
    refine (h.exec t level head).next ?_
    intro v n n' _ after
    exact ih after.twins (after.level level) tail

end Mates

inductive ResultLike (ρ : Spelling) : Except RuntimeError α → Except RuntimeError α → Prop where
  | ok {a} : ResultLike ρ (.ok a) (.ok a)
  | error {line fault fault'} (like : FaultLike ρ fault fault') :
      ResultLike ρ (.error ⟨line, fault⟩) (.error ⟨line, fault'⟩)

theorem Tied.finish {ρ : Spelling} {w : World} {m m' : Machine} {action action' : Run α}
    (tied : Tied ρ w m m' action action' Same) :
    Option.Rel (fun (final final' : Except RuntimeError α × Machine) =>
      ResultLike ρ final.1 final'.1 ∧ ∃ v, After ρ w m m' v final.2 final'.2) (action.finish m) (action'.finish m') := by
  unfold Tied at tied
  unfold Run.finish
  generalize action m = result at tied ⊢
  generalize action' m' = result' at tied ⊢
  cases tied with
  | ok after same =>
    cases same
    exact .some ⟨.ok, _, after⟩
  | error after like => exact .some ⟨.error like, _, after⟩
  | exhausted => exact .none

theorem Tied.ends {ρ : Spelling} {w : World} {m m' n : Machine} {action action' : Run α}
    (tied : Tied ρ w m m' action action' Same) {outcome : Except RuntimeError α}
    (ends : action.finish m = some (outcome, n)) :
    ∃ outcome' n' v, action'.finish m' = some (outcome', n') ∧ ResultLike ρ outcome outcome' ∧ After ρ w m m' v n n' := by
  have both := tied.finish
  rw [ends] at both
  generalize action'.finish m' = other at both ⊢
  cases both with
  | @some _ final both =>
    obtain ⟨like, v, after⟩ := both
    exact ⟨final.1, final.2, v, rfl, like, after⟩

theorem Tied.endsBefore {ρ : Spelling} {w : World} {m m' n' : Machine} {action action' : Run α}
    (tied : Tied ρ w m m' action action' Same) {outcome' : Except RuntimeError α}
    (ends : action'.finish m' = some (outcome', n')) :
    ∃ outcome n v, action.finish m = some (outcome, n) ∧ ResultLike ρ outcome outcome' ∧ After ρ w m m' v n n' := by
  have both := tied.finish
  rw [ends] at both
  generalize action.finish m = other at both ⊢
  cases both with
  | @some final _ both =>
    obtain ⟨like, v, after⟩ := both
    exact ⟨final.1, final.2, v, rfl, like, after⟩

theorem evaluatorMates (ρ : Spelling) (limit : Nat) : Mates ρ (evaluator limit) (evaluator limit) := by
  induction limit with
  | zero => exact ⟨fun _ _ _ => .exhausted, fun _ _ _ => .exhausted, fun _ _ _ _ => .exhausted⟩
  | succ limit ih =>
    exact ⟨fun t level like => ih.evalRule t level like, fun t level like => ih.execRule t level like,
      fun t like => ih.callRule t like⟩

end Treewalk
