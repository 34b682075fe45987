/-! Finite maps from names, as association lists in the order of first insertion. -/
namespace Treewalk

structure Table (α : Type) where
  entries : List (String × α)
  deriving DecidableEq, Repr

namespace Table

def empty : Table α := ⟨[]⟩

def findEntry (name : String) : List (String × α) → Option α
  | [] => none
  | (key, value) :: rest => if name = key then some value else findEntry name rest

def find? (t : Table α) (name : String) : Option α := findEntry name t.entries

def contains (t : Table α) (name : String) : Bool := (t.find? name).isSome

def insertEntry (name : String) (value : α) : List (String × α) → List (String × α)
  | [] => [(name, value)]
  | (key, old) :: rest =>
    if name = key then (key, value) :: rest else (key, old) :: insertEntry name value rest

def insert (t : Table α) (name : String) (value : α) : Table α := ⟨insertEntry name value t.entries⟩

theorem findEntryInsert (name other : String) (value : α) (entries : List (String × α)) :
    findEntry other (insertEntry name value entries) =
      if other = name then some value else findEntry other entries := by
  induction entries with
  | nil => rfl
  | cons entry rest ih =>
    obtain ⟨key, old⟩ := entry
    unfold insertEntry
    split <;> simp only [findEntry]
    · rename_i same
      subst same
      split <;> rfl
    · rename_i different
      rw [ih]
      split
      · rename_i here
        rw [if_neg]
        exact fun same => different (same.symm.trans here)
      · rfl

@[simp] theorem findEmpty (name : String) : (empty : Table α).find? name = none := rfl

theorem findInsert (t : Table α) (name other : String) (value : α) :
    (t.insert name value).find? other = if other = name then some value else t.find? other :=
  findEntryInsert name other value t.entries

theorem containsInsert (t : Table α) (name other : String) (value : α) :
    (t.insert name value).contains other = (other == name || t.contains other) := by
  unfold contains
  rw [findInsert]
  split <;> simp_all

end Table
end Treewalk
