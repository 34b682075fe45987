import Treewalk.Proofs.Frames
import Treewalk.Proofs.Related

/-! Two runs side by side. In one of them some scopes may spell their names otherwise, and there may be scopes that the
other run does not have and in which nothing is ever declared. `Like` says so of the code: every slot leads to the same
scope in both, counted by the scopes that each of them has. `Twins` says so of the machines: the frames of the scopes
that both have come in pairs, all that a run can show is the same. -/
namespace Treewalk

/- How names are spelled in the second run where they are spelled otherwise, and which of them are used there. The name
of the receiver is spelled in one way only. -/
structure Spelling where
  map : String → String
  injective : ∀ {name other}, map name = map other → name = other
  receiver : map "this" = "this"
  known : String → Prop

namespace Spelling

def same : Spelling := ⟨id, fun equal => equal, rfl, fun _ => True⟩

def spell (ρ : Spelling) (renamed : Bool) (name : String) : String := if renamed then ρ.map name else name

variable (ρ : Spelling)

theorem spellInjective (renamed : Bool) {name other : String} (equal : ρ.spell renamed name = ρ.spell renamed other) :
    name = other := by
  cases renamed with
  | false => exact equal
  | true => exact ρ.injective equal

theorem spellReceiver (renamed : Bool) : ρ.spell renamed "this" = "this" := by
  cases renamed with
  | false => rfl
  | true => exact ρ.receiver

def ident (renamed : Bool) (name : Ident) : Ident := ⟨ρ.spell renamed name.name, name.line⟩

def table (renamed : Bool) (t : Table α) : Table α := ⟨t.entries.map fun entry => (ρ.spell renamed entry.1, entry.2)⟩

theorem tableKept (t : Table α) : ρ.table false t = t := by
  obtain ⟨entries⟩ := t
  exact congrArg Table.mk (List.map_id entries)

theorem tableFind (renamed : Bool) (t : Table α) (name : String) :
    (ρ.table renamed t).find? (ρ.spell renamed name) = t.find? name := by
  obtain ⟨entries⟩ := t
  unfold table Table.find?
  dsimp only
  induction entries with
  | nil => rfl
  | cons entry rest ih =>
    obtain ⟨key, value⟩ := entry
    simp only [List.map_cons, Table.findEntry, ih]
    by_cases here : name = key
    · rw [if_pos here, if_pos (congrArg _ here)]
    · rw [if_neg here, if_neg fun equal => here (ρ.spellInjective renamed equal)]

theorem tableInsert (renamed : Bool) (t : Table α) (name : String) (value : α) :
    ρ.table renamed (t.insert name value) = (ρ.table renamed t).insert (ρ.spell renamed name) value := by
  obtain ⟨entries⟩ := t
  unfold table Table.insert
  congr 1
  dsimp only
  induction entries with
  | nil => rfl
  | cons entry rest ih =>
    obtain ⟨key, old⟩ := entry
    simp only [List.map_cons, Table.insertEntry]
    by_cases here : name = key
    · rw [if_pos here, if_pos (congrArg _ here)]
      rfl
    · rw [if_neg here, if_neg fun equal => here (ρ.spellInjective renamed equal), List.map_cons, ih]

end Spelling

/- A scope of the first run: one that both runs have, or one in which nothing is declared and that the second run does
without. -/
inductive Layer where
  | shared (renamed : Bool)
  | extra
  deriving DecidableEq, Repr

namespace Layer

/- The slot of the second run that leads to the same scope, and whether names are spelled otherwise there. Beyond the
known scopes the two runs are the same. -/
def shift : List Layer → Nat → Option (Nat × Bool)
  | [], depth => some (depth, false)
  | .shared renamed :: _, 0 => some (0, renamed)
  | .extra :: _, 0 => none
  | .shared _ :: layers, depth + 1 => (shift layers depth).map fun (depth, renamed) => (depth + 1, renamed)
  | .extra :: layers, depth + 1 => shift layers depth

def innermost : List Layer → Option Bool
  | [] => some false
  | .shared renamed :: _ => some renamed
  | .extra :: _ => none

def Plain (layers : List Layer) : Prop := ∀ layer ∈ layers, layer = .shared false

theorem shiftPlain {layers : List Layer} (plain : Plain layers) (depth : Nat) :
    shift layers depth = some (depth, false) := by
  induction layers generalizing depth with
  | nil => rfl
  | cons layer layers ih =>
    obtain ⟨rfl, others⟩ := List.forall_mem_cons.mp plain
    cases depth with
    | zero => rfl
    | succ depth => rw [shift, ih others depth]; rfl

theorem innermostPlain {layers : List Layer} (plain : Plain layers) : innermost layers = some false := by
  cases layers with
  | nil => rfl
  | cons layer layers =>
    obtain ⟨rfl, _⟩ := List.forall_mem_cons.mp plain
    rfl

theorem plainNil : Plain [] := fun _ member => absurd member List.not_mem_nil

theorem Plain.cons {layers : List Layer} (plain : Plain layers) : Plain (.shared false :: layers) :=
  List.forall_mem_cons.mpr ⟨rfl, plain⟩

end Layer

def UseLike (ρ : Spelling) (layers : List Layer) (name : Ident) (slot : Depth) (name' : Ident) (slot' : Depth) : Prop :=
  match slot with
  | none => slot' = none ∧ name' = name
  | some depth => ∃ depth' renamed, Layer.shift layers depth = some (depth', renamed) ∧ slot' = some depth' ∧
      name' = ρ.ident renamed name ∧ (renamed = true → ρ.known name.name)

mutual

def Expr.Like (ρ : Spelling) (layers : List Layer) : Expr → Expr → Prop
  | .literal value line, e => e = .literal value line
  | .unary op right line, e => ∃ right', e = .unary op right' line ∧ right.Like ρ layers right'
  | .binary left op right line, e => ∃ left' right', e = .binary left' op right' line ∧ left.Like ρ layers left' ∧
      right.Like ρ layers right'
  | .logical left op right line, e => ∃ left' right', e = .logical left' op right' line ∧ left.Like ρ layers left' ∧
      right.Like ρ layers right'
  | .ternary condition thenBranch elseBranch line, e => ∃ condition' thenBranch' elseBranch',
      e = .ternary condition' thenBranch' elseBranch' line ∧ condition.Like ρ layers condition' ∧
      thenBranch.Like ρ layers thenBranch' ∧ elseBranch.Like ρ layers elseBranch'
  | .grouping inner, e => ∃ inner', e = .grouping inner' ∧ inner.Like ρ layers inner'
  | .var name slot, e => ∃ name' slot', e = .var name' slot' ∧ UseLike ρ layers name slot name' slot'
  | .assign name value slot, e => ∃ name' value' slot', e = .assign name' value' slot' ∧
      UseLike ρ layers name slot name' slot' ∧ value.Like ρ layers value'
  | .call callee arguments line, e => ∃ callee' arguments', e = .call callee' arguments' line ∧
      callee.Like ρ layers callee' ∧ Expr.LikeAll ρ layers arguments arguments'
  | .get object name, e => ∃ object', e = .get object' name ∧ object.Like ρ layers object'
  | .set object name value, e => ∃ object' value', e = .set object' name value' ∧ object.Like ρ layers object' ∧
      value.Like ρ layers value'
  | .this keyword slot, e => ∃ keyword' slot', e = .this keyword' slot' ∧ UseLike ρ layers keyword slot keyword' slot'
  | .lambda decl, e => ∃ decl', e = .lambda decl' ∧ decl.Like ρ layers decl'
termination_by structural first _ => first

def Expr.LikeAll (ρ : Spelling) (layers : List Layer) : List Expr → List Expr → Prop
  | [], es => es = []
  | e :: rest, es => ∃ e' rest', es = e' :: rest' ∧ e.Like ρ layers e' ∧ Expr.LikeAll ρ layers rest rest'
termination_by structural first _ => first

def Stmt.Like (ρ : Spelling) (layers : List Layer) : Stmt → Stmt → Prop
  | .expression value, s => ∃ value', s = .expression value' ∧ value.Like ρ layers value'
  | .print value, s => ∃ value', s = .print value' ∧ value.Like ρ layers value'
  | .varDecl name none, s => ∃ renamed, Layer.innermost layers = some renamed ∧ s = .varDecl (ρ.ident renamed name) none
  | .varDecl name (some initializer), s => ∃ renamed initializer', Layer.innermost layers = some renamed ∧
      s = .varDecl (ρ.ident renamed name) (some initializer') ∧ initializer.Like ρ layers initializer'
  | .block body, s => ∃ renamed body', s = .block body' ∧ Stmt.LikeAll ρ (.shared renamed :: layers) body body'
  | .ifElse condition thenBranch none, s => ∃ condition' thenBranch', s = .ifElse condition' thenBranch' none ∧
      condition.Like ρ layers condition' ∧ thenBranch.Like ρ layers thenBranch'
  | .ifElse condition thenBranch (some elseBranch), s => ∃ condition' thenBranch' elseBranch',
      s = .ifElse condition' thenBranch' (some elseBranch') ∧ condition.Like ρ layers condition' ∧
      thenBranch.Like ρ layers thenBranch' ∧ elseBranch.Like ρ layers elseBranch'
  | .whileLoop condition body, s => ∃ condition' body', s = .whileLoop condition' body' ∧
      condition.Like ρ layers condition' ∧ body.Like ρ layers body'
  | .funDecl decl, s => ∃ decl' renamed, s = .funDecl decl' ∧ Layer.innermost layers = some renamed ∧
      ρ.spell renamed decl.label = decl.label ∧ decl.Like ρ layers decl'
  | .classDecl decl, s => ∃ decl' renamed, s = .classDecl decl' ∧ Layer.innermost layers = some renamed ∧
      ρ.spell renamed decl.name.name = decl.name.name ∧ decl.Like ρ layers decl'
  | .returnStmt keyword none, s => s = .returnStmt keyword none
  | .returnStmt keyword (some value), s => ∃ value', s = .returnStmt keyword (some value') ∧ value.Like ρ layers value'
termination_by structural first _ => first

def Stmt.LikeAll (ρ : Spelling) (layers : List Layer) : List Stmt → List Stmt → Prop
  | [], body => body = []
  | s :: rest, body => ∃ s' rest', body = s' :: rest' ∧ s.Like ρ layers s' ∧ Stmt.LikeAll ρ layers rest rest'
termination_by structural first _ => first

/- Functions have the same names in both runs: they show them. -/
def FunctionDecl.Like (ρ : Spelling) (layers : List Layer) : FunctionDecl → FunctionDecl → Prop
  | ⟨name, params, body, line⟩, f => ∃ renamed renamedBody body', f = ⟨name, params.map (ρ.ident renamed), body', line⟩ ∧
      Stmt.LikeAll ρ (.shared renamedBody :: .shared renamed :: layers) body body'
termination_by structural first _ => first

def FunctionDecl.LikeAll (ρ : Spelling) (layers : List Layer) : List FunctionDecl → List FunctionDecl → Prop
  | [], decls => decls = []
  | f :: rest, decls => ∃ f' rest', decls = f' :: rest' ∧ f.Like ρ layers f' ∧ FunctionDecl.LikeAll ρ layers rest rest'
termination_by structural first _ => first

def ClassDecl.LikeSuperclass (ρ : Spelling) (layers : List Layer) : Option Expr → Option Expr → Prop
  | none, superclass => superclass = none
  | some e, superclass => ∃ e', superclass = some e' ∧ e.Like ρ layers e'
termination_by structural first _ => first

def ClassDecl.Like (ρ : Spelling) (layers : List Layer) : ClassDecl → ClassDecl → Prop
  | ⟨name, superclass, methods, classMethods⟩, c => ∃ superclass' methods' classMethods',
      c = ⟨name, superclass', methods', classMethods'⟩ ∧ ClassDecl.LikeSuperclass ρ layers superclass superclass' ∧
      FunctionDecl.LikeAll ρ (.shared false :: layers) methods methods' ∧
      FunctionDecl.LikeAll ρ (.shared false :: layers) classMethods classMethods'
termination_by structural first _ => first

end

theorem Spelling.identsKept (ρ : Spelling) (names : List Ident) : names.map (ρ.ident false) = names := List.map_id names

theorem useLikeSelf (ρ : Spelling) {layers : List Layer} (plain : Layer.Plain layers) (name : Ident) (slot : Depth) :
    UseLike ρ layers name slot name slot := by
  cases slot with
  | none => exact ⟨rfl, rfl⟩
  | some depth => exact ⟨depth, false, Layer.shiftPlain plain depth, rfl, rfl, Bool.noConfusion⟩

theorem useLine {ρ : Spelling} {layers : List Layer} {name name' : Ident} {slot slot' : Depth}
    (use : UseLike ρ layers name slot name' slot') : name'.line = name.line := by
  cases slot with
  | none => rw [use.2]
  | some depth =>
    obtain ⟨_, _, _, _, rfl, _⟩ := use
    rfl

mutual

theorem Expr.likeSelf (ρ : Spelling) : ∀ (e : Expr) {layers : List Layer}, Layer.Plain layers → e.Like ρ layers e
  | .literal _ _, _, _ => rfl
  | .unary _ right _, _, plain => ⟨right, rfl, right.likeSelf ρ plain⟩
  | .binary left _ right _, _, plain => ⟨left, right, rfl, left.likeSelf ρ plain, right.likeSelf ρ plain⟩
  | .logical left _ right _, _, plain => ⟨left, right, rfl, left.likeSelf ρ plain, right.likeSelf ρ plain⟩
  | .ternary condition thenBranch elseBranch _, _, plain =>
    ⟨condition, thenBranch, elseBranch, rfl, condition.likeSelf ρ plain, thenBranch.likeSelf ρ plain,
      elseBranch.likeSelf ρ plain⟩
  | .grouping inner, _, plain => ⟨inner, rfl, inner.likeSelf ρ plain⟩
  | .var name slot, _, plain => ⟨name, slot, rfl, useLikeSelf ρ plain name slot⟩
  | .assign name value slot, _, plain => ⟨name, value, slot, rfl, useLikeSelf ρ plain name slot, value.likeSelf ρ plain⟩
  | .call callee arguments _, _, plain =>
    ⟨callee, arguments, rfl, callee.likeSelf ρ plain, Expr.likeSelfAll ρ arguments plain⟩
  | .get object _, _, plain => ⟨object, rfl, object.likeSelf ρ plain⟩
  | .set object _ value, _, plain => ⟨object, value, rfl, object.likeSelf ρ plain, value.likeSelf ρ plain⟩
  | .this keyword slot, _, plain => ⟨keyword, slot, rfl, useLikeSelf ρ plain keyword slot⟩
  | .lambda decl, _, plain => ⟨decl, rfl, decl.likeSelf ρ plain⟩
termination_by structural e => e

theorem Expr.likeSelfAll (ρ : Spelling) : ∀ (es : List Expr) {layers : List Layer}, Layer.Plain layers →
    Expr.LikeAll ρ layers es es
  | [], _, _ => rfl
  | e :: rest, _, plain => ⟨e, rest, rfl, e.likeSelf ρ plain, Expr.likeSelfAll ρ rest plain⟩
termination_by structural es => es

theorem Stmt.likeSelf (ρ : Spelling) : ∀ (s : Stmt) {layers : List Layer}, Layer.Plain layers → s.Like ρ layers s
  | .expression value, _, plain => ⟨value, rfl, value.likeSelf ρ plain⟩
  | .print value, _, plain => ⟨value, rfl, value.likeSelf ρ plain⟩
  | .varDecl _ none, _, plain => ⟨false, Layer.innermostPlain plain, rfl⟩
  | .varDecl _ (some initializer), _, plain =>
    ⟨false, initializer, Layer.innermostPlain plain, rfl, initializer.likeSelf ρ plain⟩
  | .block body, _, plain => ⟨false, body, rfl, Stmt.likeSelfAll ρ body plain.cons⟩
  | .ifElse condition thenBranch none, _, plain =>
    ⟨condition, thenBranch, rfl, condition.likeSelf ρ plain, thenBranch.likeSelf ρ plain⟩
  | .ifElse condition thenBranch (some elseBranch), _, plain =>
    ⟨condition, thenBranch, elseBranch, rfl, condition.likeSelf ρ plain, thenBranch.likeSelf ρ plain,
      elseBranch.likeSelf ρ plain⟩
  | .whileLoop condition body, _, plain => ⟨condition, body, rfl, condition.likeSelf ρ plain, body.likeSelf ρ plain⟩
  | .funDecl decl, _, plain => ⟨decl, false, rfl, Layer.innermostPlain plain, rfl, decl.likeSelf ρ plain⟩
  | .classDecl decl, _, plain => ⟨decl, false, rfl, Layer.innermostPlain plain, rfl, decl.likeSelf ρ plain⟩
  | .returnStmt _ none, _, _ => rfl
  | .returnStmt _ (some value), _, plain => ⟨value, rfl, value.likeSelf ρ plain⟩
termination_by structural s => s

theorem Stmt.likeSelfAll (ρ : Spelling) : ∀ (body : List Stmt) {layers : List Layer}, Layer.Plain layers →
    Stmt.LikeAll ρ layers body body
  | [], _, _ => rfl
  | s :: rest, _, plain => ⟨s, rest, rfl, s.likeSelf ρ plain, Stmt.likeSelfAll ρ rest plain⟩
termination_by structural body => body

theorem FunctionDecl.likeSelf (ρ : Spelling) : ∀ (decl : FunctionDecl) {layers : List Layer}, Layer.Plain layers →
    decl.Like ρ layers decl
  | ⟨name, params, body, line⟩, _, plain =>
    ⟨false, false, body, by rw [ρ.identsKept], Stmt.likeSelfAll ρ body plain.cons.cons⟩
termination_by structural decl => decl

theorem FunctionDecl.likeSelfAll (ρ : Spelling) : ∀ (decls : List FunctionDecl) {layers : List Layer},
    Layer.Plain layers → FunctionDecl.LikeAll ρ layers decls decls
  | [], _, _ => rfl
  | f :: rest, _, plain => ⟨f, rest, rfl, f.likeSelf ρ plain, FunctionDecl.likeSelfAll ρ rest plain⟩
termination_by structural decls => decls

theorem ClassDecl.likeSelfSuperclass (ρ : Spelling) : ∀ (superclass : Option Expr) {layers : List Layer},
    Layer.Plain layers → ClassDecl.LikeSuperclass ρ layers superclass superclass
  | none, _, _ => rfl
  | some e, _, plain => ⟨e, rfl, e.likeSelf ρ plain⟩
termination_by structural superclass => superclass

theorem ClassDecl.likeSelf (ρ : Spelling) : ∀ (decl : ClassDecl) {layers : List Layer}, Layer.Plain layers →
    decl.Like ρ layers decl
  | ⟨_, superclass, methods, classMethods⟩, _, plain =>
    ⟨superclass, methods, classMethods, rfl, ClassDecl.likeSelfSuperclass ρ superclass plain,
      FunctionDecl.likeSelfAll ρ methods plain.cons, FunctionDecl.likeSelfAll ρ classMethods plain.cons⟩
termination_by structural decl => decl

end

theorem Expr.likeLine (ρ : Spelling) : ∀ {e e' : Expr} {layers : List Layer}, e.Like ρ layers e' → e'.line = e.line
  | .literal _ _, _, _, like => by rw [like]
  | .unary _ _ _, _, _, like => by obtain ⟨_, rfl, _⟩ := like; rfl
  | .binary _ _ _ _, _, _, like => by obtain ⟨_, _, rfl, _⟩ := like; rfl
  | .logical _ _ _ _, _, _, like => by obtain ⟨_, _, rfl, _⟩ := like; rfl
  | .ternary _ _ _ _, _, _, like => by obtain ⟨_, _, _, rfl, _⟩ := like; rfl
  | .grouping inner, _, _, like => by
    obtain ⟨inner', rfl, like⟩ := like
    have kept : inner'.line = inner.line := Expr.likeLine ρ like
    exact kept
  | .var _ _, _, _, like => by
    obtain ⟨_, _, rfl, use⟩ := like
    exact useLine use
  | .assign _ _ _, _, _, like => by
    obtain ⟨_, _, _, rfl, use, _⟩ := like
    exact useLine use
  | .call _ _ _, _, _, like => by obtain ⟨_, _, rfl, _⟩ := like; rfl
  | .get _ _, _, _, like => by obtain ⟨_, rfl, _⟩ := like; rfl
  | .set _ _ _, _, _, like => by obtain ⟨_, _, rfl, _⟩ := like; rfl
  | .this _ _, _, _, like => by
    obtain ⟨_, _, rfl, use⟩ := like
    exact useLine use
  | .lambda ⟨_, _, _, _⟩, _, _, like => by obtain ⟨_, rfl, _, _, _, rfl, _⟩ := like; rfl

end Treewalk
