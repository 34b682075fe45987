import Treewalk.Proofs.Frames

/-! Cells. Frames are shared and a frame is reached over chains of any length, so one binding is read and written from
many places. A write goes to one frame and one name there: it shows wherever just these are read, over whatever chain,
and nowhere else. -/
namespace Treewalk
namespace Frames

inductive Change where
  | root
  | child (parent : FrameId)
  | define (id : FrameId) (name : String) (value : Value)
  | assign (id : FrameId) (name : String) (value : Value)
  | assignAt (id : FrameId) (depth : Nat) (name : String) (value : Value) (line : Nat)
  | assignGlobal (id : FrameId) (name : String) (value : Value) (line : Nat)
  deriving DecidableEq, Repr

def Change.frame? : Change → Option FrameId
  | .root => none
  | .child id | .define id _ _ | .assign id _ _ | .assignAt id _ _ _ _ | .assignGlobal id _ _ _ => some id

def settled (fs : Frames) : Except RuntimeError Frames → Frames
  | .ok written => written
  | .error _ => fs

def Change.apply (fs : Frames) : Change → Frames
  | .root => fs.addRoot
  | .child parent => fs.addChild parent
  | .define id name value => fs.define id name value
  | .assign id name value => (fs.assign? id name value).getD fs
  | .assignAt id depth name value line => fs.settled (fs.assignAt id depth name value line)
  | .assignGlobal id name value line => fs.settled (fs.assignGlobal id name value line)

inductive Built : Frames → Prop where
  | empty : Built .empty
  | change {fs : Frames} (before : Built fs) (c : Change) (given : ∀ id ∈ c.frame?, (fs.frame? id).isSome) :
      Built (c.apply fs)

/- Both ways to read over a chain are this, with the frame that the chain leads to; so are both ways to write. -/
def readFrom (fs : Frames) (target : Option FrameId) (name : String) (line : Nat) : Except RuntimeError Value :=
  match target.bind (fs.get? · name) with
  | some value => .ok value
  | none => .error (undefined name line)

def writeTo (fs : Frames) (target : Option FrameId) (name : String) (value : Value) (line : Nat) :
    Except RuntimeError Frames :=
  match target.filter (fs.contains · name) with
  | some holder => .ok (fs.define holder name value)
  | none => .error (undefined name line)

section
variable (fs : Frames) (id : FrameId) (depth : Nat) (name : String) (value : Value) (line : Nat)

theorem getAtReads : fs.getAt id depth name line = fs.readFrom (fs.ancestor? id depth) name line := rfl

theorem getGlobalReads : fs.getGlobal id name line = fs.readFrom (some (fs.outermost id)) name line := rfl

theorem assignAtWrites : fs.assignAt id depth name value line = fs.writeTo (fs.ancestor? id depth) name value line := rfl

theorem assignGlobalWrites : fs.assignGlobal id name value line = fs.writeTo (some (fs.outermost id)) name value line :=
  rfl

end

def Ordered (fs : Frames) : Prop := ∀ id parent, fs.parent? id = some parent → parent.index < id.index

theorem parentDefine (fs : Frames) (id other : FrameId) (name : String) (value : Value) :
    (fs.define id name value).parent? other = fs.parent? other := by
  unfold parent?
  rw [frameDefine]
  split
  · rename_i same
    subst same
    cases fs.frame? other <;> rfl
  · rfl

theorem ancestorDefine (fs : Frames) (id other : FrameId) (name : String) (value : Value) (depth : Nat) :
    (fs.define id name value).ancestor? other depth = fs.ancestor? other depth := by
  induction depth generalizing other with
  | zero => rfl
  | succ depth ih => simp only [ancestor?, parentDefine, ih]

theorem climbDefine (fs : Frames) (id other : FrameId) (name : String) (value : Value) (steps : Nat) :
    (fs.define id name value).climb steps other = fs.climb steps other := by
  induction steps generalizing other with
  | zero => rfl
  | succ steps ih =>
    simp only [climb, parentDefine]
    cases fs.parent? other with
    | none => rfl
    | some parent => exact ih parent

theorem sizeDefine (fs : Frames) (id : FrameId) (name : String) (value : Value) :
    (fs.define id name value).cells.size = fs.cells.size := by
  simp [define]

theorem outermostDefine (fs : Frames) (id other : FrameId) (name : String) (value : Value) :
    (fs.define id name value).outermost other = fs.outermost other := by
  simp only [outermost, sizeDefine, climbDefine]

section Order
variable {fs : Frames}

theorem frameIndex {id : FrameId} (there : (fs.frame? id).isSome) : id.index < fs.cells.size := by
  simpa [frame?] using there

theorem orderedAdd (ordered : fs.Ordered) (frame : Frame)
    (older : ∀ parent ∈ frame.parent, parent.index < fs.cells.size) : (fs.add frame).Ordered := by
  intro id parent link
  unfold parent? at link
  rw [frameAdd] at link
  split at link
  · rename_i new
    subst new
    exact older parent link
  · exact ordered id parent link

theorem orderedDefine (ordered : fs.Ordered) (id : FrameId) (name : String) (value : Value) :
    (fs.define id name value).Ordered := by
  intro other parent link
  rw [parentDefine] at link
  exact ordered other parent link

theorem orderedWrite (ordered : fs.Ordered) (target : Option FrameId) (name : String) (value : Value) (line : Nat) :
    (fs.settled (fs.writeTo target name value line)).Ordered := by
  unfold writeTo
  cases target.filter (fs.contains · name) with
  | none => exact ordered
  | some holder => exact orderedDefine ordered holder name value

theorem Built.ordered (built : Built fs) : fs.Ordered := by
  induction built with
  | empty =>
    intro id parent link
    simp [parent?, frame?, Frames.empty] at link
  | @change fs before c given ih =>
    cases c with
    | root => exact orderedAdd ih ⟨none, .empty⟩ (by simp)
    | child parent =>
      have old := frameIndex (given parent rfl)
      exact orderedAdd ih ⟨some parent, .empty⟩ (by simpa using old)
    | define id name value => exact orderedDefine ih id name value
    | assign id name value =>
      change ((fs.assign? id name value).getD fs).Ordered
      unfold assign?
      split
      · exact orderedDefine ih id name value
      · exact ih
    | assignAt id depth name value line =>
      rw [Change.apply, assignAtWrites]
      exact orderedWrite ih _ name value line
    | assignGlobal id name value line =>
      rw [Change.apply, assignGlobalWrites]
      exact orderedWrite ih _ name value line

theorem climbEnds (ordered : fs.Ordered) (steps : Nat) (id : FrameId) (enough : id.index ≤ steps) :
    fs.parent? (fs.climb steps id) = none ∧ ∃ links, fs.ancestor? id links = some (fs.climb steps id) := by
  induction steps generalizing id with
  | zero =>
    refine ⟨?_, 0, rfl⟩
    cases link : fs.parent? id with
    | none => exact link
    | some parent =>
      have older := ordered id parent link
      omega
  | succ steps ih =>
    unfold climb
    cases link : fs.parent? id with
    | none => exact ⟨link, 0, rfl⟩
    | some parent =>
      have older := ordered id parent link
      obtain ⟨ends, links, reached⟩ := ih parent (by omega)
      exact ⟨ends, links + 1, by simpa [ancestor?, link] using reached⟩

theorem outermostEnds (built : Built fs) {id : FrameId} (there : (fs.frame? id).isSome) :
    fs.parent? (fs.outermost id) = none ∧ ∃ links, fs.ancestor? id links = some (fs.outermost id) :=
  climbEnds built.ordered fs.cells.size id (Nat.le_of_lt (frameIndex there))

end Order

structure Overwrites (fs after : Frames) (cell : FrameId) (name : String) (value : Value) : Prop where
  get : ∀ id read, after.get? id read = if id = cell ∧ read = name then some value else fs.get? id read
  getAt : ∀ id depth read line, after.getAt id depth read line =
    if fs.ancestor? id depth = some cell ∧ read = name then .ok value else fs.getAt id depth read line
  getGlobal : ∀ id read line, after.getGlobal id read line =
    if fs.outermost id = cell ∧ read = name then .ok value else fs.getGlobal id read line
  bound : ∀ id read, after.contains id read = fs.contains id read
  links : ∀ id, after.parent? id = fs.parent? id
  frames : after.cells.size = fs.cells.size

section Writes
variable {fs : Frames} {cell : FrameId} {name : String}

theorem getBound (bound : fs.contains cell name = true) (value : Value) (id : FrameId) (read : String) :
    (fs.define cell name value).get? id read = if id = cell ∧ read = name then some value else fs.get? id read := by
  obtain ⟨frame, found, _⟩ := containsFrame bound
  rw [getDefine, found]
  rfl

theorem readDefined (bound : fs.contains cell name = true) (value : Value) (target : Option FrameId) (read : String)
    (line : Nat) : (fs.define cell name value).readFrom target read line =
      if target = some cell ∧ read = name then .ok value else fs.readFrom target read line := by
  cases target with
  | none => simp [readFrom]
  | some frame => by_cases same : frame = cell ∧ read = name <;> simp [readFrom, getBound bound, same]

theorem overwrites (bound : fs.contains cell name = true) (value : Value) :
    fs.Overwrites (fs.define cell name value) cell name value where
  get := getBound bound value
  getAt id depth read line := by
    rw [getAtReads, getAtReads, ancestorDefine, readDefined bound]
  getGlobal id read line := by
    rw [getGlobalReads, getGlobalReads, outermostDefine, readDefined bound]
    simp only [Option.some.injEq]
  bound id read := by
    unfold contains
    rw [getBound bound]
    split
    · rename_i same
      obtain ⟨rfl, rfl⟩ := same
      exact bound.symm
    · rfl
  links id := parentDefine fs cell id name value
  frames := sizeDefine fs cell name value

theorem assignOverwrites {id : FrameId} {value : Value} {after : Frames} (done : fs.assign? id name value = some after) :
    fs.Overwrites after id name value := by
  unfold assign? at done
  split at done
  · rename_i bound
    cases done
    exact overwrites bound value
  · cases done

theorem writeOverwrites {target : Option FrameId} {line : Nat} {value : Value} {after : Frames}
    (done : fs.writeTo target name value line = .ok after) :
    ∃ cell, target = some cell ∧ fs.Overwrites after cell name value := by
  unfold writeTo at done
  split at done
  · rename_i holder found
    obtain ⟨reached, bound⟩ := Option.filter_eq_some_iff.mp found
    cases done
    exact ⟨holder, reached, overwrites bound value⟩
  · cases done

theorem writeSucceeds (target : Option FrameId) (value : Value) (line : Nat) :
    (∃ after, fs.writeTo target name value line = .ok after) ↔ ∃ old, fs.readFrom target name line = .ok old := by
  unfold writeTo readFrom contains
  cases target with
  | none => simp
  | some frame => cases found : fs.get? frame name <;> simp [Option.filter, found]

/- What can be said of a write to the frame that a chain leads to: it succeeds just where the same read does, then
overwrites that one cell, and otherwise changes nothing. -/
structure OneCell (fs : Frames) (target : Option FrameId) (name : String) (value : Value)
    (written : Except RuntimeError Frames) (read : Except RuntimeError Value) : Prop where
  succeeds : (∃ after, written = .ok after) ↔ ∃ old, read = .ok old
  overwrites : ∀ after, written = .ok after → ∃ cell, target = some cell ∧ fs.Overwrites after cell name value
  fails : ∀ e, written = .error e → fs.settled written = fs

theorem oneCell (target : Option FrameId) (name : String) (value : Value) (line : Nat) :
    fs.OneCell target name value (fs.writeTo target name value line) (fs.readFrom target name line) where
  succeeds := writeSucceeds target value line
  overwrites _ done := writeOverwrites done
  fails _ failed := by rw [failed, settled]

end Writes

/- A write over a chain of frames hits exactly one cell, whatever frames were built and however they are shared; reading
the outermost frame is reading as many links out as there are. -/
theorem writesHitOneCell {fs : Frames} (built : Built fs) {id : FrameId} (there : (fs.frame? id).isSome) (name : String)
    (value : Value) (line : Nat) :
    (∀ depth, fs.OneCell (fs.ancestor? id depth) name value (fs.assignAt id depth name value line)
      (fs.getAt id depth name line)) ∧
    fs.OneCell (some (fs.outermost id)) name value (fs.assignGlobal id name value line) (fs.getGlobal id name line) ∧
    (∀ after, fs.assign? id name value = some after → fs.Overwrites after id name value) ∧
    ∃ links root, fs.ancestor? id links = some root ∧ fs.parent? root = none ∧
      ∀ read readLine, fs.getGlobal id read readLine = fs.getAt id links read readLine := by
  obtain ⟨ends, links, reached⟩ := outermostEnds built there
  refine ⟨fun depth => ?_, ?_, fun after done => assignOverwrites done, links, fs.outermost id, reached, ends, ?_⟩
  · rw [assignAtWrites, getAtReads]
    exact oneCell _ name value line
  · rw [assignGlobalWrites, getGlobalReads]
    exact oneCell _ name value line
  · intro read readLine
    rw [getGlobalReads, getAtReads, reached]

def forked : Frames :=
  [Change.root, .child ⟨0⟩, .child ⟨0⟩, .child ⟨1⟩, .define ⟨0⟩ "x" .nil, .assignAt ⟨3⟩ 1 "x" .nil 1].foldl Change.apply .empty

theorem forkedBuilt : Built forked := by
  simp only [forked, List.foldl_cons, List.foldl_nil]
  refine .change (.change (.change (.change (.change (.change .empty _ ?_) _ ?_) _ ?_) _ ?_) _ ?_) _ ?_ <;> decide

theorem forkedCellHit : Built forked ∧ (forked.frame? ⟨3⟩).isSome ∧
    ∃ after, forked.assignAt ⟨3⟩ 2 "x" (.bool true) 1 = .ok after ∧ after.getAt ⟨2⟩ 1 "x" 1 = .ok (.bool true) ∧
      after.getGlobal ⟨1⟩ "x" 1 = .ok (.bool true) ∧ after.getAt ⟨3⟩ 1 "x" 1 = forked.getAt ⟨3⟩ 1 "x" 1 ∧
      after.contains ⟨3⟩ "x" = forked.contains ⟨3⟩ "x" := by
  have there : (forked.frame? ⟨3⟩).isSome := by decide
  obtain ⟨onChain, _⟩ := writesHitOneCell forkedBuilt there "x" (.bool true) 1
  obtain ⟨after, done⟩ := (onChain 2).succeeds.mpr ⟨.nil, rfl⟩
  obtain ⟨cell, reached, hits⟩ := (onChain 2).overwrites after done
  obtain rfl : cell = ⟨0⟩ := Option.some.inj (reached.symm.trans (by decide))
  refine ⟨forkedBuilt, there, after, done, ?_, ?_, ?_, hits.bound _ _⟩
  · rw [hits.getAt, if_pos (by decide)]
  · rw [hits.getGlobal, if_pos (by decide)]
  · rw [hits.getAt, if_neg (by decide)]

end Frames
end Treewalk
