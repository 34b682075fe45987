import Treewalk.Frames

/-! Frames after one of them was added or a name was bound in one. -/
namespace Treewalk

namespace Frames

theorem frameAdd (fs : Frames) (frame : Frame) (id : FrameId) :
    (fs.add frame).frame? id = if id = fs.nextId then some frame else fs.frame? id := by
  obtain ⟨index⟩ := id
  simp only [frame?, add, nextId, Array.getElem?_push, FrameId.mk.injEq]

theorem frameDefine (fs : Frames) (id other : FrameId) (name : String) (value : Value) :
    (fs.define id name value).frame? other =
      if other = id then (fs.frame? id).map fun f => { f with bindings := f.bindings.insert name value }
      else fs.frame? other := by
  obtain ⟨index⟩ := id
  obtain ⟨other⟩ := other
  simp only [frame?, define, Array.getElem?_modify, FrameId.mk.injEq]
  by_cases same : index = other
  · simp [same]
  · simp [same, Ne.symm same]

theorem getDefine (fs : Frames) (id other : FrameId) (name read : String) (value : Value) :
    (fs.define id name value).get? other read =
      if other = id ∧ read = name then (fs.frame? id).map fun _ => value else fs.get? other read := by
  unfold get?
  rw [frameDefine]
  by_cases here : other = id
  · subst here
    cases fs.frame? other with
    | none => simp
    | some frame => by_cases same : read = name <;> simp [Table.findInsert, same]
  · simp [here]

theorem getDefineKept {fs : Frames} {id other : FrameId} {name read : String} {held : Value}
    (free : name = read → fs.get? id read = none) (value : Value) (found : fs.get? other read = some held) :
    (fs.define id name value).get? other read = some held := by
  rw [getDefine]
  split
  · rename_i here
    obtain ⟨rfl, same⟩ := here
    cases (free same.symm).symm.trans found
  · exact found

theorem getAdd (fs : Frames) (frame : Frame) (id : FrameId) (read : String) :
    (fs.add frame).get? id read = if id = fs.nextId then frame.bindings.find? read else fs.get? id read := by
  unfold get?
  rw [frameAdd]
  split <;> rfl

theorem frameFresh (fs : Frames) : fs.frame? fs.nextId = none := by
  simp [frame?, nextId]

theorem addedKept (fs : Frames) (parent : FrameId) : ∀ id frame, fs.frame? id = some frame →
    (fs.addChild parent).frame? id = some frame := by
  intro id frame found
  refine (frameAdd fs _ id).trans ?_
  rw [if_neg]
  · exact found
  · rintro rfl
    cases fs.frameFresh.symm.trans found

theorem climbTop {fs : Frames} {id : FrameId} (top : fs.parent? id = none) (steps : Nat) : fs.climb steps id = id := by
  cases steps with
  | zero => rfl
  | succ steps => rw [climb, top]

theorem containsFrame {fs : Frames} {id : FrameId} {name : String} (h : fs.contains id name = true) :
    ∃ frame, fs.frame? id = some frame ∧ frame.bindings.contains name = true := by
  unfold contains get? at h
  cases found : fs.frame? id with
  | none => simp [found] at h
  | some frame => exact ⟨frame, rfl, by simpa [found, Table.contains] using h⟩

theorem frameContains {fs : Frames} {id : FrameId} {name : String} {frame : Frame}
    (found : fs.frame? id = some frame) : fs.contains id name = frame.bindings.contains name := by
  simp [contains, get?, found, Table.contains]

theorem parentFrame {fs : Frames} {id parent : FrameId} (h : fs.parent? id = some parent) :
    ∃ frame, fs.frame? id = some frame ∧ frame.parent = some parent := by
  unfold parent? at h
  cases found : fs.frame? id with
  | none => simp [found] at h
  | some frame => exact ⟨frame, rfl, by simpa [found] using h⟩

theorem containsDefine {fs : Frames} {id other : FrameId} {name new : String} {value : Value}
    (h : (fs.define id new value).contains other name = true) :
    fs.contains other name = true ∨ (other = id ∧ name = new) := by
  obtain ⟨frame, found, bound⟩ := containsFrame h
  rw [frameDefine] at found
  split at found
  · rename_i same
    obtain ⟨old, before, rfl⟩ := Option.map_eq_some_iff.mp found
    rw [Table.containsInsert, Bool.or_eq_true, beq_iff_eq] at bound
    cases bound with
    | inl isNew => exact .inr ⟨same, isNew⟩
    | inr wasOld =>
      left
      rw [same, frameContains before]
      exact wasOld
  · left
    rw [frameContains found]
    exact bound

theorem definedContains {fs : Frames} {id : FrameId} {frame : Frame} (found : fs.frame? id = some frame)
    (new name : String) (value : Value) :
    (fs.define id new value).contains id name = (name == new || fs.contains id name) := by
  have now : (fs.define id new value).frame? id =
      some { frame with bindings := frame.bindings.insert new value } := by
    rw [frameDefine, if_pos rfl, found]
    rfl
  rw [frameContains now, frameContains found, Table.containsInsert]

end Frames

end Treewalk
