import Mathlib.Logic.Equiv.Basic
import Treewalk.Proofs.Along
import Treewalk.Proofs.Lexical.Resolution
import Treewalk.Proofs.Renaming

/-! Resolution after a renaming. Where the walk over the old program has a scope, the walk over the new one has the same
scope with two keys exchanged, or just the same scope; so it finds each name as many scopes out as before, and has
nothing to report either. -/
namespace Treewalk

open Walk

namespace Renaming
variable (r : Renaming)

/- The old name is not met under the new spelling: there it is the new name that is not met. -/
def spelling : Spelling where
  map := Equiv.swap r.old r.new
  injective equal := (Equiv.swap r.old r.new).injective equal
  receiver := Equiv.swap_apply_of_ne_of_ne r.oldName.symm r.newName.symm
  known := (· ≠ r.new)

def layers (sites : List Site) : List Layer := sites.map fun site => .shared (r.hits site)

theorem spells (here : Bool) {name : Ident} (other : name.name ≠ r.new) :
    r.spelling.ident here name = r.write here name := by
  cases here with
  | false => rfl
  | true =>
    obtain ⟨text, line⟩ := name
    unfold Spelling.ident Spelling.spell write spelling
    by_cases same : text = r.old
    · simp [same]
    · simp [same, Equiv.swap_apply_of_ne_of_ne same other]

theorem shiftLayers (sites : List Site) (depth : Nat) :
    Layer.shift (r.layers sites) depth = some (depth, r.bound sites (some depth)) := by
  induction sites generalizing depth with
  | nil => rfl
  | cons site sites ih =>
    cases depth with
    | zero => rfl
    | succ depth =>
      have inner := ih depth
      unfold layers at inner
      rw [layers, List.map_cons, Layer.shift, inner]
      rfl

theorem innermostLayers (sites : List Site) : Layer.innermost (r.layers sites) = some (r.declared sites) := by
  cases sites <;> rfl

theorem useLike (sites : List Site) {name : Ident} (other : name.name ≠ r.new) (slot : Depth) :
    UseLike r.spelling (r.layers sites) name slot (r.write (r.bound sites slot) name) slot := by
  cases slot with
  | none => exact ⟨rfl, rfl⟩
  | some depth => exact ⟨depth, _, r.shiftLayers sites depth, rfl, (r.spells _ other).symm, fun _ => other⟩

theorem thisLike (sites : List Site) {keyword : Ident} (this : keyword.name = "this") (slot : Depth) :
    UseLike r.spelling (r.layers sites) keyword slot keyword slot := by
  cases slot with
  | none => exact ⟨rfl, rfl⟩
  | some depth =>
    obtain ⟨text, line⟩ := keyword
    cases this
    refine ⟨depth, _, r.shiftLayers sites depth, rfl, ?_, fun _ => r.newName.symm⟩
    rw [Spelling.ident, r.spelling.spellReceiver]

def respell (sites : List Site) (scopes : List Scope) : List Scope :=
  List.zipWith (fun site scope => r.spelling.table (r.hits site) scope) sites scopes

structure Fits (sites : List Site) (c : ScopeContext) : Prop where
  length : c.scopes.length = sites.length
  fresh : ∀ scope ∈ c.scopes, scope.contains r.new = false

section Scopes
variable {r} {scope : Scope} {name : Ident}

theorem writtenFind (here : Bool) (other : name.name ≠ r.new) :
    (r.spelling.table here scope).find? (r.write here name).name = scope.find? name.name := by
  rw [← r.spells here other]
  exact r.spelling.tableFind here scope name.name

theorem writtenElsewhere (here there : Bool) (other : name.name ≠ r.new) (fresh : scope.find? r.new = none) :
    (r.spelling.table here scope).find? (r.write there name).name = scope.find? name.name ∨
      (r.spelling.table here scope).find? (r.write there name).name = none := by
  by_cases same : name.name = r.old
  · cases here with
    | false =>
      cases there with
      | false => exact .inl (writtenFind false other)
      | true =>
        right
        have new : (r.write true name).name = r.new := by simp [write, same]
        rw [r.spelling.tableKept, new, fresh]
    | true =>
      cases there with
      | true => exact .inl (writtenFind true other)
      | false =>
        right
        have old : (r.write false name).name = r.spelling.spell true r.new := by
          change name.name = Equiv.swap r.old r.new r.new
          rw [same, Equiv.swap_apply_right]
        rw [old, r.spelling.tableFind, fresh]
  · left
    have kept : r.write there name = r.write here name := by simp [write, same]
    rw [kept]
    exact writtenFind here other

theorem writtenAbsent (here there : Bool) (other : name.name ≠ r.new) (fresh : scope.find? r.new = none)
    (absent : scope.contains name.name = false) :
    (r.spelling.table here scope).contains (r.write there name).name = false := by
  unfold Table.contains at absent ⊢
  cases writtenElsewhere here there other fresh with
  | inl same => rw [same, absent]
  | inr missing => rw [missing]; rfl

theorem Fits.findNone {sites : List Site} {c : ScopeContext} (fits : r.Fits sites c) (member : scope ∈ c.scopes) :
    scope.find? r.new = none := by
  have absent := fits.fresh scope member
  unfold Table.contains at absent
  exact Option.isSome_eq_false_iff.mp absent |> Option.isNone_iff_eq_none.mp

theorem slotKept {sites : List Site} {scopes : List Scope} (length : scopes.length = sites.length)
    (fresh : ∀ scope ∈ scopes, scope.find? r.new = none) (other : name.name ≠ r.new) :
    (r.respell sites scopes).findIdx?
        (·.contains (r.write (r.bound sites (scopes.findIdx? (·.contains name.name))) name).name) =
      scopes.findIdx? (·.contains name.name) := by
  induction scopes generalizing sites with
  | nil =>
    cases sites with
    | nil => rfl
    | cons site sites => cases length
  | cons scope scopes ih =>
    cases sites with
    | nil => cases length
    | cons site sites =>
      obtain ⟨first, rest⟩ := List.forall_mem_cons.mp fresh
      have inner := ih (Nat.succ.inj length) rest
      rw [List.findIdx?_cons, respell, List.zipWith_cons_cons, List.findIdx?_cons]
      cases found : scope.contains name.name with
      | true =>
        have same : (r.spelling.table (r.hits site) scope).contains (r.write (r.hits site) name).name = true := by
          rw [Table.contains, writtenFind _ other]
          exact found
        exact if_pos same
      | false =>
        have bound : r.bound (site :: sites) ((scopes.findIdx? (·.contains name.name)).map (· + 1)) =
            r.bound sites (scopes.findIdx? (·.contains name.name)) := by
          cases scopes.findIdx? (·.contains name.name) <;> rfl
        have absent : (r.spelling.table (r.hits site) scope).contains
            (r.write (r.bound sites (scopes.findIdx? (·.contains name.name))) name).name = false :=
          writtenAbsent _ _ other first found
        simp only [Bool.false_eq_true, if_false, bound, absent]
        exact congrArg _ inner

theorem receiverKept {sites : List Site} {scopes : List Scope} (length : scopes.length = sites.length) :
    (r.respell sites scopes).findIdx? (·.contains "this") = scopes.findIdx? (·.contains "this") := by
  induction scopes generalizing sites with
  | nil =>
    cases sites with
    | nil => rfl
    | cons site sites => cases length
  | cons scope scopes ih =>
    cases sites with
    | nil => cases length
    | cons site sites =>
      have inner := ih (Nat.succ.inj length)
      have same : (r.spelling.table (r.hits site) scope).contains "this" = scope.contains "this" := by
        have found := r.spelling.tableFind (r.hits site) scope "this"
        rw [r.spelling.spellReceiver] at found
        rw [Table.contains, found, Table.contains]
      rw [List.findIdx?_cons, respell, List.zipWith_cons_cons, List.findIdx?_cons, same]
      unfold respell at inner
      rw [inner]

end Scopes

section Steps
variable {r} {sites : List Site} {c : ScopeContext} {name : Ident}

theorem Fits.introduced {names : List String} {c' : ScopeContext} (fits : r.Fits sites c) (moves : Introduces names c c')
    (fresh : r.new ∉ names) : r.Fits sites c' := by
  obtain ⟨length, without⟩ := fits
  have scopes := moves.scopes
  cases known : c.scopes with
  | nil =>
    rw [known] at scopes length
    exact ⟨by rw [scopes]; exact length, by rw [scopes]; exact fun _ member => absurd member List.not_mem_nil⟩
  | cons scope outer =>
    rw [known] at scopes length without
    obtain ⟨first, rest⟩ := List.forall_mem_cons.mp without
    refine ⟨by rw [scopes]; exact length, ?_⟩
    rw [scopes]
    refine List.forall_mem_cons.mpr ⟨?_, rest⟩
    rw [Bool.eq_false_iff, Ne, containsIntroduce, first]
    simp [fresh]

theorem slotMoved (fits : r.Fits sites c) (other : name.name ≠ r.new) :
    Along (r.respell sites) c (slot name none) (slot (r.write (r.bound sites ((slot name none).result c)) name) none)
      ((slot name none).result c) := by
  have found := slotKept fits.length (fun scope member => fits.findNone member) other
  unfold Along
  rw [slotAfter, slotResult]
  exact Prod.ext ((slotResult _ _).trans found) (slotAfter _ none _)

theorem initializedMoved (fits : r.Fits sites c) (other : name.name ≠ r.new)
    (clean : ((checkInitialized name).after c).errors = []) (there : Bool) :
    Along (r.respell sites) c (checkInitialized name) (checkInitialized (r.write there name)) () := by
  obtain ⟨scopes, kind, within, errors⟩ := c
  cases scopes with
  | nil =>
    cases sites with
    | nil => rfl
    | cons site sites => cases fits.length
  | cons scope outer =>
    cases sites with
    | nil => cases fits.length
    | cons site sites =>
      rw [initializedErrors] at clean
      have calm : (scope.find? name.name == some false) = false := by
        cases pending : scope.find? name.name == some false with
        | false => rfl
        | true =>
          have noted := (List.append_eq_nil_iff.mp clean).2
          unfold Treewalk.pending at noted
          simp [pending, note] at noted
      have calm' : ((r.spelling.table (r.hits site) scope).find? (r.write there name).name == some false) = false := by
        cases writtenElsewhere (r.hits site) there other (fits.findNone List.mem_cons_self) with
        | inl same => rw [same, calm]
        | inr missing => rw [missing]; rfl
      have left : (checkInitialized name).after ⟨scope :: outer, kind, within, errors⟩ =
          ⟨scope :: outer, kind, within, errors⟩ := by
        change Walk.after (if scope.find? name.name == some false then _ else pure ()) _ = _
        rw [calm]
        rfl
      unfold Along
      rw [left]
      change (if (r.spelling.table (r.hits site) scope).find? (r.write there name).name == some false then _
        else pure () : Walk Unit) _ = _
      rw [calm']
      rfl

theorem thisMoved (fits : r.Fits sites c) {keyword : Ident} (this : keyword.name = "this") :
    Along (r.respell sites) c (thisSlot keyword none) (thisSlot keyword none) ((thisSlot keyword none).result c) := by
  have found := receiverKept (r := r) fits.length
  rw [← this] at found
  have moved : Along (r.respell sites) c (slot keyword none) (slot keyword none) ((slot keyword none).result c) := by
    unfold Along
    rw [slotResult, slotAfter]
    exact Prod.ext ((slotResult _ _).trans found) (slotAfter _ none _)
  rcases moved.thisSlot with ⟨goes, same⟩ | ⟨goes, same⟩
  · rw [same]
    exact goes
  · rw [same]
    exact goes

theorem declareMoved (fits : r.Fits sites c) (other : name.name ≠ r.new) (clean : ((declare name).after c).errors = []) :
    Along (r.respell sites) c (declare name) (declare (r.write (r.declared sites) name)) () := by
  refine Prod.ext rfl ?_
  obtain ⟨scopes, kind, within, errors⟩ := c
  cases scopes with
  | nil =>
    cases sites with
    | nil => rfl
    | cons site sites => cases fits.length
  | cons scope outer =>
    cases sites with
    | nil => cases fits.length
    | cons site sites =>
      have written : (r.spelling.table (r.hits site) scope).contains (r.write (r.hits site) name).name =
          scope.contains name.name := by
        rw [Table.contains, writtenFind _ other, Table.contains]
      refine (declareAfter (r.write (r.hits site) name) _).trans ?_
      rw [declareAfter] at clean ⊢
      dsimp only [ScopeContext.moved, respell, List.zipWith_cons_cons] at clean ⊢
      rw [written]
      cases known : scope.contains name.name with
      | true =>
        rw [known] at clean
        simp at clean
      | false =>
        have inserted := r.spelling.tableInsert (r.hits site) scope name.name false
        have spelled := congrArg Ident.name (r.spells (r.hits site) other)
        rw [← spelled]
        exact congrArg (fun head => (⟨head :: _, kind, within, errors⟩ : ScopeContext)) inserted.symm

theorem defineMoved (fits : r.Fits sites c) (other : name.name ≠ r.new) :
    Along (r.respell sites) c (define name) (define (r.write (r.declared sites) name)) () := by
  refine Prod.ext rfl ?_
  obtain ⟨scopes, kind, within, errors⟩ := c
  cases scopes with
  | nil =>
    cases sites with
    | nil => rfl
    | cons site sites => cases fits.length
  | cons scope outer =>
    cases sites with
    | nil => cases fits.length
    | cons site sites =>
      have inserted := r.spelling.tableInsert (r.hits site) scope name.name true
      have spelled := congrArg Ident.name (r.spells (r.hits site) other)
      have head : (r.spelling.table (r.hits site) scope).insert (r.write (r.hits site) name).name true =
          r.spelling.table (r.hits site) (scope.insert name.name true) := by
        rw [← spelled]
        exact inserted.symm
      exact congrArg (fun head => (⟨head :: _, kind, within, errors⟩ : ScopeContext)) head

end Steps
end Renaming
end Treewalk
