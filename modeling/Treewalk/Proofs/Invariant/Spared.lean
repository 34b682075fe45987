import Treewalk.Proofs.Invariant.Sessions
import Treewalk.Proofs.Renaming

/-! Code that has `this` nowhere as a name. The parts of such code are such code as well, so an invariant that asks for it
of all that is run has to see to states and calls only. -/
namespace Treewalk

section Words

theorem Expr.wordsMember {e : Expr} {es : List Expr} (member : e ∈ es) : e.words ⊆ Expr.wordsAll es := by
  induction member with
  | head rest => exact List.subset_append_left _ _
  | tail first _ ih => exact List.Subset.trans ih (List.subset_append_right _ _)

theorem Stmt.wordsMember {s : Stmt} {body : List Stmt} (member : s ∈ body) : s.words ⊆ Stmt.wordsAll body := by
  induction member with
  | head rest => exact List.subset_append_left _ _
  | tail first _ ih => exact List.Subset.trans ih (List.subset_append_right _ _)

theorem FunctionDecl.wordsMember {decl : FunctionDecl} {decls : List FunctionDecl} (member : decl ∈ decls) :
    decl.words ⊆ FunctionDecl.wordsAll decls := by
  induction member with
  | head rest => exact List.subset_append_left _ _
  | tail first _ ih => exact List.Subset.trans ih (List.subset_append_right _ _)

def Phrase.words : Phrase → List String
  | .program body => Stmt.wordsAll body
  | .stmt s => s.words
  | .expr e => e.words
  | .function _ decl => decl.words

theorem Expr.partWords {e part : Expr} (member : part ∈ e.parts) : part.words ⊆ e.words := by
  cases e with
  | call callee arguments line =>
    rcases List.mem_cons.mp member with rfl | member
    · exact List.subset_append_left _ _
    · exact List.Subset.trans (Expr.wordsMember member) (List.subset_append_right _ _)
  | _ => grind [Expr.parts, Expr.words]

theorem Stmt.itemWords {s : Stmt} {part : Phrase} (member : part ∈ (Phrase.stmt s).items) : part.words ⊆ s.words := by
  cases s with
  | block body =>
    obtain ⟨s, inside, rfl⟩ := List.mem_map.mp member
    exact Stmt.wordsMember inside
  | ifElse condition thenBranch elseBranch => cases elseBranch <;> grind [Phrase.items, Phrase.words, Stmt.words]
  | returnStmt keyword value => cases value <;> grind [Phrase.items, Phrase.words, Stmt.words]
  | _ => grind [Phrase.items, Phrase.words, Stmt.words]

theorem FunctionDecl.bodyWords (decl : FunctionDecl) : Stmt.wordsAll decl.body ⊆ decl.words := by
  obtain ⟨name, params, body, line⟩ := decl
  exact List.subset_append_right _ _

theorem FunctionDecl.paramWord {decl : FunctionDecl} {param : Ident} (member : param ∈ decl.params) :
    param.name ∈ decl.words := by
  obtain ⟨name, params, body, line⟩ := decl
  exact List.mem_append_left _ (List.mem_map_of_mem member)

theorem Phrase.itemWords {node part : Phrase} (member : part ∈ node.items) : part.words ⊆ node.words := by
  cases node with
  | program body =>
    obtain ⟨s, inside, rfl⟩ := List.mem_map.mp member
    exact Stmt.wordsMember inside
  | function kind decl =>
    obtain ⟨s, inside, rfl⟩ := List.mem_map.mp member
    exact List.Subset.trans (Stmt.wordsMember inside) decl.bodyWords
  | stmt s => exact Stmt.itemWords member
  | expr e =>
    obtain ⟨e', inside, rfl⟩ := List.mem_map.mp member
    exact Expr.partWords inside

theorem Stmt.nameWord (name : Ident) (initializer : Option Expr) :
    name.name ∈ (Stmt.varDecl name initializer).words := by
  cases initializer <;> exact List.mem_cons_self

theorem ClassDecl.superclassWords {decl : ClassDecl} {e : Expr} (up : decl.superclass = some e) :
    e.words ⊆ decl.words := by
  obtain ⟨name, superclass, methods, classMethods⟩ := decl
  cases up
  exact List.Subset.trans (List.subset_append_left _ _) (List.subset_cons_self _ _)

theorem classSpared {decl : ClassDecl} (spared : "this" ∉ decl.words) : decl.name.name ≠ "this" ∧
    "this" ∉ FunctionDecl.wordsAll decl.methods ∧ "this" ∉ FunctionDecl.wordsAll decl.classMethods := by
  obtain ⟨name, superclass, methods, classMethods⟩ := decl
  have rest : "this" ∉ ClassDecl.wordsSuperclass superclass ++
      (FunctionDecl.wordsAll methods ++ FunctionDecl.wordsAll classMethods) :=
    fun member => spared (List.mem_cons_of_mem _ member)
  exact ⟨fun same => spared (List.mem_cons.mpr (.inl same.symm)),
    fun member => rest (List.mem_append_right _ (List.mem_append_left _ member)),
    fun member => rest (List.mem_append_right _ (List.mem_append_right _ member))⟩

end Words

namespace Invariant

def sparing (Holds : Observed → Prop) (Moves : Observed → Observed → Prop)
    (Calls : Observed → Option Address → Callee → Prop) (Binds : Observed → InstanceId → String → Prop) : Invariant where
  Holds := Holds
  Moves := Moves
  Node _ _ node := "this" ∉ node.words
  Body _ _ _ body := "this" ∉ Stmt.wordsAll body
  Passed _ _ := True
  Sees _ _ := True
  Calls := Calls
  Binds := Binds

variable {Holds : Observed → Prop} {Moves : Observed → Observed → Prop}
  {Calls : Observed → Option Address → Callee → Prop} {Binds : Observed → InstanceId → String → Prop}

theorem sparingParts : (sparing Holds Moves Calls Binds).Parts where
  item spared _ found := fun member => spared (Phrase.itemWords (List.mem_of_getElem? found) member)
  initializer spared := fun member => spared (List.mem_cons_of_mem _ member)
  parent spared up := fun member => spared (ClassDecl.superclassWords up member)
  first spared := fun member => spared (List.mem_append_left _ member)
  rest spared _ _ := fun member => spared (List.mem_append_right _ member)
  passed _ _ _ := trivial

theorem sparingValues : (sparing Holds Moves Calls Binds).Values where
  plain _ := trivial
  named _ _ _ := trivial
  field _ _ _ _ := trivial
  received _ _ _ := trivial
  hosts _ _ _ _ := trivial

theorem sparingSequence (address : Option Address) :
    (sparing Holds Moves Calls Binds).Sequence address (fun _ _ program => "this" ∉ Stmt.wordsAll program) :=
  ⟨fun spared member => spared (List.mem_append_left _ member),
    fun spared _ member => spared (List.mem_append_right _ member)⟩

end Invariant

end Treewalk
