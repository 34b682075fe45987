import Treewalk.Proofs.Mirror.Actions

/-! From a node to its parts. If the frames fit the place of a node they fit the places of its parts, as soon as the
run has opened the frames and bound the names that the walk had opened scopes and entered names for. -/
namespace Treewalk

open Walk

theorem resolvedExpr {phrase : Phrase} {c : ScopeContext} {e : Expr} (h : .expr e = phrase.resolve.result c) :
    ∃ source, phrase = .expr source ∧ e = source.resolve.result c := by
  cases phrase with
  | expr source => exact ⟨source, rfl, Phrase.expr.inj h⟩
  | program body => exact nomatch h
  | stmt s => exact nomatch h
  | function kind decl => exact nomatch h

theorem resolvedStmt {phrase : Phrase} {c : ScopeContext} {s : Stmt} (h : .stmt s = phrase.resolve.result c) :
    ∃ source, phrase = .stmt source ∧ s = source.resolve.result c := by
  cases phrase with
  | stmt source => exact ⟨source, rfl, Phrase.stmt.inj h⟩
  | program body => exact nomatch h
  | expr e => exact nomatch h
  | function kind decl => exact nomatch h

def Stmt.MadeFrom (source : Stmt) (c : ScopeContext) : Stmt → Prop
  | .block body => ∃ inner, source = .block inner ∧
      body = (Stmt.resolveList inner).result { c with scopes := .empty :: c.scopes }
  | .varDecl name initializer => ∃ initializer', source = .varDecl name initializer' ∧
      ∀ e, initializer = some e → ∃ e', initializer' = some e' ∧ e = e'.resolve.result ((declare name).after c)
  | .funDecl decl => ∃ name params body line, source = .funDecl ⟨name, params, body, line⟩ ∧
      ∀ ident, name = some ident → decl = (FunctionDecl.resolve .function ⟨name, params, body, line⟩).result
        ((define ident).after ((declare ident).after c))
  | .classDecl decl => ∃ source', source = .classDecl source' ∧ decl = source'.resolve.result c
  | _ => True

theorem Stmt.madeFrom (source : Stmt) (c : ScopeContext) : source.MadeFrom c (source.resolve.result c) := by
  cases source with
  | block inner => exact ⟨inner, rfl, rfl⟩
  | varDecl name initializer =>
    cases initializer with
    | none =>
      refine ⟨none, rfl, ?_⟩
      intro e same
      cases same
    | some e => exact ⟨some e, rfl, fun e' same => ⟨e, rfl, (Option.some.inj same).symm⟩⟩
  | funDecl decl =>
    obtain ⟨name, params, body, line⟩ := decl
    cases name with
    | none =>
      refine ⟨none, params, body, line, rfl, ?_⟩
      intro ident same
      cases same
    | some name =>
      refine ⟨some name, params, body, line, rfl, ?_⟩
      intro ident same
      cases same
      rfl
  | classDecl decl => exact ⟨decl, rfl, rfl⟩
  | ifElse condition thenBranch elseBranch => cases elseBranch <;> trivial
  | returnStmt keyword value => cases value <;> trivial
  | _ => trivial

theorem Phrase.plainSource {phrase : Phrase} {c : ScopeContext} (plain : (phrase.resolve.result c).Plain) :
    phrase.Plain := by
  cases phrase with
  | expr e => trivial
  | stmt s =>
    cases s with
    | block body => exact absurd rfl (plain ((inScope .empty (Stmt.resolveList body)).result c))
    | _ => exact nofun
  | program body => exact plain
  | function kind decl => exact plain

theorem Phrase.plainDeclares {phrase : Phrase} (plain : phrase.Plain) (proper : phrase.Proper) :
    ∀ part ∈ phrase.items, part.declares = [] := by
  intro part member
  cases phrase with
  | program body => exact plain.elim
  | function kind decl => exact plain.elim
  | expr e =>
    obtain ⟨e, _, rfl⟩ := List.mem_map.mp member
    rfl
  | stmt s =>
    -- a statement that declares a name itself has no items
    have undeclaring : ¬ s.Declaring := by
      intro declaring
      cases s with
      | varDecl name initializer => cases member
      | funDecl decl => cases member
      | classDecl decl => cases member
      | _ => exact declaring
    have names := branchNames plain member
    rw [Stmt.undeclared proper undeclaring] at names
    exact List.eq_nil_iff_forall_not_mem.mpr fun name here => List.not_mem_nil (names name here)

theorem Phrase.plainItem {phrase part : Phrase} {address : Address} {place place' : Place} {index : Nat}
    (plain : phrase.Plain) (proper : phrase.Proper)
    (inside : phrase.part? address place (.item index) = some (place', part)) :
    place'.sites = place.sites ∧ place'.context.scopes = place.context.scopes := by
  obtain ⟨_, sites, moved⟩ := Place.threadFound inside
  obtain ⟨sites', scopes', _⟩ := Phrase.plainInside plain address place
  have nothing : (phrase.items.take index).flatMap Phrase.declares = [] := by
    rw [List.flatMap_eq_nil_iff]
    exact fun part member => Phrase.plainDeclares plain proper part (List.mem_of_mem_take member)
  have scopes := moved.scopes
  rw [nothing, introduceNone] at scopes
  exact ⟨sites.trans sites', scopes.trans scopes'⟩

namespace Setting
variable {g : Setting} {s : Observed} {address : Option Address}

theorem NodeAt.item {node part : Phrase} {index : Nat} (here : g.NodeAt s address node) (plain : node.Plain)
    (found : node.items[index]? = some part) : g.NodeAt s (within? address (.item index)) part := by
  cases address with
  | none => exact here
  | some address =>
    obtain ⟨place, phrase, located, rfl, scopes, chain, reflects⟩ := here
    obtain ⟨place', source, inside, rfl⟩ := Phrase.itemFound address found
    obtain ⟨sites, same⟩ := Phrase.plainItem (Phrase.plainSource plain) (locatedProper g.proper located) inside
    refine ⟨place', source, .part located inside, rfl, scopes, ?_, ?_⟩
    · rw [sites]
      exact chain
    · cases reflects with
      | inl whole => exact .inl (whole.trans same.symm)
      | inr name =>
        -- a name has no parts
        obtain ⟨name, depth, isName, _⟩ := name
        rw [isName] at found
        cases found

def ItemsAt (g : Setting) (s : Observed) (address : Option Address) (index : Nat) (body : List Stmt) : Prop :=
  match address with
  | none => g.Outside s
  | some address => ∃ (place : Place) (source : List Stmt), body = (Stmt.resolveList source).result place.context ∧
      FrameChain s place.context.scopes place.sites s.machine.environment ∧
      ∀ i place' part, (place.thread (source.map .stmt))[i]? = some (place', part) →
        Located g.programs (.item (index + i) :: address) place' part

def Passed (g : Setting) (s : Observed) (address : Option Address) : Prop :=
  ∀ way place phrase, address = some way → Located g.programs way place phrase →
    FrameChain s (introduce phrase.declares place.context.scopes) place.sites s.machine.environment

theorem ItemsAt.head {index : Nat} {first : Stmt} {rest : List Stmt}
    (here : g.ItemsAt s address index (first :: rest)) :
    g.NodeAt s (within? address (.item index)) (.stmt first) := by
  cases address with
  | none => exact here
  | some address =>
    obtain ⟨place, source, same, chain, located⟩ := here
    cases source with
    | nil => exact nomatch same
    | cons s rest =>
      obtain ⟨rfl, _⟩ := List.cons.inj same
      exact ⟨place, .stmt s, located 0 place (.stmt s) rfl, rfl, place.context.scopes, chain, .inl rfl⟩

theorem ItemsAt.tail {s' : Observed} {index : Nat} {first : Stmt} {rest : List Stmt}
    (here : g.ItemsAt s address index (first :: rest)) (later : Later s s')
    (passed : g.Passed s' (within? address (.item index))) : g.ItemsAt s' address (index + 1) rest := by
  cases address with
  | none => exact Outside.grow here later.grows later.environment
  | some address =>
    obtain ⟨place, source, same, _, located⟩ := here
    cases source with
    | nil => exact nomatch same
    | cons first rest =>
      obtain ⟨_, rfl⟩ := List.cons.inj same
      have chain := passed _ place (.stmt first) rfl (located 0 place (.stmt first) rfl)
      rw [← (Phrase.resolveMoves (.stmt first) place.context).scopes] at chain
      refine ⟨place.after (Phrase.stmt first).resolve, rest, rfl, chain, ?_⟩
      intro i place' part found
      have next := located (i + 1) place' part found
      rwa [Nat.add_comm i 1, ← Nat.add_assoc] at next

theorem Outside.addFrame (older : g.older) (s : Observed) (parent : FrameId) :
    g.Outside ((s.addFrame parent none).within s.frames.nextId) :=
  ⟨older, addedSite s parent none, ⟨some parent, .empty⟩, addedFrame s parent none⟩

theorem NodeAt.block {body : List Stmt} (here : g.NodeAt s address (.stmt (.block body))) :
    g.ItemsAt ((s.addFrame s.machine.environment (siteOf address .block)).within s.frames.nextId) address 0 body := by
  cases address with
  | none => exact Outside.addFrame here.1 s s.machine.environment
  | some address =>
    obtain ⟨place, phrase, located, resolved, scopes, chain, reflects⟩ := here
    obtain ⟨source, rfl, same⟩ := resolvedStmt resolved
    have made := source.madeFrom place.context
    rw [← same] at made
    obtain ⟨inner, rfl, rfl⟩ := made
    have whole : scopes = place.context.scopes := by
      cases reflects with
      | inl whole => exact whole
      | inr name =>
        obtain ⟨name, depth, isName, _⟩ := name
        exact nomatch isName
    subst whole
    refine ⟨place.enter ⟨address, .block⟩ .empty, inner, rfl, ?_, ?_⟩
    · exact (chainAddFrame chain ⟨address, .block⟩).grow ⟨rfl, (Grows.refl _).frames⟩
    · intro i place' part found
      rw [Nat.zero_add]
      exact .part located found

end Setting
end Treewalk
