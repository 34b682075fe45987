import Treewalk.Proofs.Twins

/-! The machines of two runs side by side. A world says which frame of the second run stands for a frame of the first.
The frames that were there before the two runs parted stand for themselves. -/
namespace Treewalk

/- The layers from a frame of the first run outwards, and what stands for the frame in the second. For an extra frame
that is what stands for the frame around it. -/
structure Link where
  layers : List Layer
  twin : FrameId

abbrev World := FrameId → Option Link

namespace World

def Le (w w' : World) : Prop := ∀ id link, w id = some link → w' id = some link

def add (w : World) (id : FrameId) (link : Link) : World := fun other => if other = id then some link else w other

def Mate (w : World) (renamed : Bool) (id twin : FrameId) : Prop :=
  ∃ layers, w id = some ⟨layers, twin⟩ ∧ Layer.innermost layers = some renamed

theorem Le.refl (w : World) : w.Le w := fun _ _ found => found

theorem Le.trans {w w' w'' : World} (first : w.Le w') (second : w'.Le w'') : w.Le w'' :=
  fun id link found => second id link (first id link found)

theorem Le.mate {w w' : World} (le : w.Le w') {renamed : Bool} {id twin : FrameId} (mate : w.Mate renamed id twin) :
    w'.Mate renamed id twin := by
  obtain ⟨layers, found, spelled⟩ := mate
  exact ⟨layers, le _ _ found, spelled⟩

theorem addHere (w : World) (id : FrameId) (link : Link) : w.add id link id = some link := if_pos rfl

theorem leAdd {w : World} {id : FrameId} (new : w id = none) (link : Link) : w.Le (w.add id link) := by
  intro other link' found
  unfold add
  rw [if_neg]
  · exact found
  · rintro rfl
    cases new.symm.trans found

end World

open World

def FrameFits (ρ : Spelling) (w : World) (fs fs' : Frames) (id : FrameId) : Link → Prop
  | ⟨[], twin⟩ => twin = id ∧ ∃ frame, fs.frame? id = some frame ∧ fs'.frame? id = some frame ∧
      ∀ parent, frame.parent = some parent → w parent = some ⟨[], parent⟩
  | ⟨.shared renamed :: layers, twin⟩ => ∃ parent parent' bindings, fs.frame? id = some ⟨some parent, bindings⟩ ∧
      fs'.frame? twin = some ⟨some parent', ρ.table renamed bindings⟩ ∧ w parent = some ⟨layers, parent'⟩
  | ⟨.extra :: layers, twin⟩ => ∃ parent, fs.frame? id = some ⟨some parent, .empty⟩ ∧ w parent = some ⟨layers, twin⟩

structure FramesFit (ρ : Spelling) (w : World) (fs fs' : Frames) : Prop where
  fits : ∀ id link, w id = some link → FrameFits ρ w fs fs' id link
  covers : ∀ id frame, fs.frame? id = some frame → ∃ link, w id = some link
  apart : ∀ {renamed renamed' id other twin}, w.Mate renamed id twin → w.Mate renamed' other twin → id = other

section Fits
variable {ρ : Spelling} {w w' : World} {fs fs' gs gs' : Frames} {id : FrameId} {link : Link}

/- An extra frame has no counterpart of its own, so only the frame itself has to be kept for it. -/
theorem FrameFits.extend (h : FrameFits ρ w fs fs' id link) (le : w.Le w')
    (kept : ∀ frame, fs.frame? id = some frame → gs.frame? id = some frame)
    (kept' : ∀ renamed frame, Layer.innermost link.layers = some renamed → fs'.frame? link.twin = some frame →
      gs'.frame? link.twin = some frame) : FrameFits ρ w' gs gs' id link := by
  obtain ⟨layers, twin⟩ := link
  cases layers with
  | nil =>
    obtain ⟨rfl, frame, here, there, parents⟩ := h
    exact ⟨rfl, frame, kept _ here, kept' _ _ rfl there, fun parent up => le _ _ (parents parent up)⟩
  | cons layer layers =>
    cases layer with
    | shared renamed =>
      obtain ⟨parent, parent', bindings, here, there, up⟩ := h
      exact ⟨parent, parent', bindings, kept _ here, kept' _ _ rfl there, le _ _ up⟩
    | extra =>
      obtain ⟨parent, here, up⟩ := h
      exact ⟨parent, kept _ here, le _ _ up⟩

theorem FrameFits.define (h : FrameFits ρ w fs fs' id link) {renamed : Bool}
    (spelled : Layer.innermost link.layers = some renamed) (name : String) (value : Value) :
    FrameFits ρ w (fs.define id name value) (fs'.define link.twin (ρ.spell renamed name) value) id link := by
  obtain ⟨layers, twin⟩ := link
  cases layers with
  | nil =>
    cases spelled
    obtain ⟨rfl, frame, here, there, parents⟩ := h
    refine ⟨rfl, { frame with bindings := frame.bindings.insert name value }, ?_, ?_, parents⟩
    · rw [Frames.frameDefine, if_pos rfl, here]
      rfl
    · rw [Frames.frameDefine, if_pos rfl, there]
      rfl
  | cons layer layers =>
    cases layer with
    | shared renamed' =>
      cases spelled
      obtain ⟨parent, parent', bindings, here, there, up⟩ := h
      refine ⟨parent, parent', bindings.insert name value, ?_, ?_, up⟩
      · rw [Frames.frameDefine, if_pos rfl, here]
        rfl
      · rw [Frames.frameDefine, if_pos rfl, there, ρ.tableInsert]
        rfl
    | extra => cases spelled

end Fits

namespace FramesFit
variable {ρ : Spelling} {w : World} {fs fs' : Frames}

theorem known (h : FramesFit ρ w fs fs') {id : FrameId} {link : Link} (found : w id = some link) :
    ∃ frame, fs.frame? id = some frame := by
  have fits := h.fits id link found
  obtain ⟨layers, twin⟩ := link
  cases layers with
  | nil =>
    obtain ⟨_, frame, here, _⟩ := fits
    exact ⟨frame, here⟩
  | cons layer layers =>
    cases layer with
    | shared renamed =>
      obtain ⟨_, _, _, here, _⟩ := fits
      exact ⟨_, here⟩
    | extra =>
      obtain ⟨_, here, _⟩ := fits
      exact ⟨_, here⟩

theorem unknown (h : FramesFit ρ w fs fs') : w fs.nextId = none := by
  cases found : w fs.nextId with
  | none => rfl
  | some link =>
    obtain ⟨frame, here⟩ := h.known found
    cases fs.frameFresh.symm.trans here

theorem mateFrames (h : FramesFit ρ w fs fs') {renamed : Bool} {id twin : FrameId} (mate : w.Mate renamed id twin) :
    ∃ frame frame', fs.frame? id = some frame ∧ fs'.frame? twin = some frame' ∧
      frame'.bindings = ρ.table renamed frame.bindings := by
  obtain ⟨layers, found, spelled⟩ := mate
  have fits := h.fits id _ found
  cases layers with
  | nil =>
    cases spelled
    obtain ⟨rfl, frame, here, there, _⟩ := fits
    exact ⟨frame, frame, here, there, (ρ.tableKept _).symm⟩
  | cons layer layers =>
    cases layer with
    | shared renamed' =>
      cases spelled
      obtain ⟨_, _, bindings, here, there, _⟩ := fits
      exact ⟨_, _, here, there, rfl⟩
    | extra => cases spelled

theorem get (h : FramesFit ρ w fs fs') {renamed : Bool} {id twin : FrameId} (mate : w.Mate renamed id twin)
    (name : String) : fs'.get? twin (ρ.spell renamed name) = fs.get? id name := by
  obtain ⟨frame, frame', here, there, bindings⟩ := h.mateFrames mate
  simp only [Frames.get?, here, there, Option.bind_some, bindings, ρ.tableFind]

theorem ancestors (h : FramesFit ρ w fs fs') {layers : List Layer} {id twin : FrameId} (found : w id = some ⟨layers, twin⟩)
    {depth depth' : Nat} {renamed : Bool} (shifted : Layer.shift layers depth = some (depth', renamed)) :
    Option.Rel (w.Mate renamed) (fs.ancestor? id depth) (fs'.ancestor? twin depth') := by
  induction depth generalizing layers id twin depth' with
  | zero =>
    cases layers with
    | nil =>
      cases shifted
      exact .some ⟨[], found, rfl⟩
    | cons layer layers =>
      cases layer with
      | shared renamed' =>
        cases shifted
        exact .some ⟨_, found, rfl⟩
      | extra => cases shifted
  | succ depth ih =>
    have fits := h.fits id _ found
    cases layers with
    | nil =>
      cases shifted
      obtain ⟨rfl, frame, here, there, parents⟩ := fits
      simp only [Frames.ancestor?, Frames.parent?, here, there, Option.bind_some]
      cases up : frame.parent with
      | none => exact .none
      | some parent => exact ih (parents parent up) rfl
    | cons layer layers =>
      cases layer with
      | shared renamed' =>
        obtain ⟨⟨depth'', renamed''⟩, inner, same⟩ := Option.map_eq_some_iff.mp shifted
        cases same
        obtain ⟨parent, parent', bindings, here, there, up⟩ := fits
        simp only [Frames.ancestor?, Frames.parent?, here, there, Option.bind_some]
        exact ih up inner
      | extra =>
        obtain ⟨parent, here, up⟩ := fits
        simp only [Frames.ancestor?, Frames.parent?, here, Option.bind_some]
        exact ih up shifted

theorem define (h : FramesFit ρ w fs fs') {renamed : Bool} {id twin : FrameId} (mate : w.Mate renamed id twin)
    (name : String) (value : Value) :
    FramesFit ρ w (fs.define id name value) (fs'.define twin (ρ.spell renamed name) value) := by
  constructor
  · intro other link found
    by_cases same : other = id
    · subst same
      obtain ⟨layers, found', spelled⟩ := mate
      cases found.symm.trans found'
      exact (h.fits other _ found).define spelled name value
    · apply (h.fits other link found).extend (.refl w)
      · intro frame here
        rw [Frames.frameDefine, if_neg same]
        exact here
      · intro renamed' frame spelled there
        have apart : link.twin ≠ twin := fun shared => same (h.apart ⟨_, shared ▸ found, spelled⟩ mate)
        rw [Frames.frameDefine, if_neg apart]
        exact there
  · intro other frame found
    rw [Frames.frameDefine] at found
    split at found
    · rename_i same
      obtain ⟨old, before, _⟩ := Option.map_eq_some_iff.mp found
      exact same ▸ h.covers id old before
    · exact h.covers other frame found
  · exact h.apart

theorem addedCovers (h : FramesFit ρ w fs fs') (parent : FrameId) (link : Link) : ∀ id frame,
    (fs.addChild parent).frame? id = some frame → ∃ link', w.add fs.nextId link id = some link' := by
  intro id frame found
  have found' : (if id = fs.nextId then some _ else fs.frame? id) = some frame := (Frames.frameAdd fs _ id).symm.trans found
  split at found'
  · rename_i same
    exact ⟨link, if_pos same⟩
  · rename_i different
    obtain ⟨link', old⟩ := h.covers id frame found'
    exact ⟨link', (if_neg different).trans old⟩

theorem addShared (h : FramesFit ρ w fs fs') {layers : List Layer} {parent parent' : FrameId}
    (found : w parent = some ⟨layers, parent'⟩) (renamed : Bool) :
    FramesFit ρ (w.add fs.nextId ⟨.shared renamed :: layers, fs'.nextId⟩) (fs.addChild parent) (fs'.addChild parent') := by
  have le := leAdd h.unknown ⟨.shared renamed :: layers, fs'.nextId⟩
  have fresh : ∀ {renamed' other}, ¬ w.Mate renamed' other fs'.nextId := by
    intro renamed' other mate
    obtain ⟨_, frame', _, there, _⟩ := h.mateFrames mate
    cases fs'.frameFresh.symm.trans there
  constructor
  · intro id link here
    by_cases new : id = fs.nextId
    · subst new
      cases (addHere w _ _).symm.trans here
      exact ⟨parent, parent', .empty, (Frames.frameAdd fs _ _).trans (if_pos rfl),
        (Frames.frameAdd fs' _ _).trans (if_pos rfl), le _ _ found⟩
    · have old : w id = some link := (if_neg new).symm.trans here
      exact (h.fits id link old).extend le (Frames.addedKept fs parent id)
        fun _ frame _ => Frames.addedKept fs' parent' link.twin frame
  · exact h.addedCovers parent _
  · intro renamed' renamed'' id other twin mate mate'
    obtain ⟨layers', here, spelled⟩ := mate
    obtain ⟨layers'', here', spelled'⟩ := mate'
    unfold add at here here'
    split at here <;> split at here'
    · rename_i same same'
      exact same.trans same'.symm
    · cases here
      exact absurd ⟨_, here', spelled'⟩ fresh
    · cases here'
      exact absurd ⟨_, here, spelled⟩ fresh
    · exact h.apart ⟨_, here, spelled⟩ ⟨_, here', spelled'⟩

theorem addExtra (h : FramesFit ρ w fs fs') {layers : List Layer} {parent twin : FrameId}
    (found : w parent = some ⟨layers, twin⟩) :
    FramesFit ρ (w.add fs.nextId ⟨.extra :: layers, twin⟩) (fs.addChild parent) fs' := by
  have le := leAdd h.unknown ⟨.extra :: layers, twin⟩
  constructor
  · intro id link here
    by_cases new : id = fs.nextId
    · subst new
      cases (addHere w _ _).symm.trans here
      exact ⟨parent, (Frames.frameAdd fs _ _).trans (if_pos rfl), le _ _ found⟩
    · have old : w id = some link := (if_neg new).symm.trans here
      exact (h.fits id link old).extend le (Frames.addedKept fs parent id) (fun _ _ _ there => there)
  · exact h.addedCovers parent _
  · intro renamed renamed' id other twin' mate mate'
    obtain ⟨layers', here, spelled⟩ := mate
    obtain ⟨layers'', here', spelled'⟩ := mate'
    unfold add at here here'
    split at here
    · cases here
      cases spelled
    · split at here'
      · cases here'
        cases spelled'
      · exact h.apart ⟨_, here, spelled⟩ ⟨_, here', spelled'⟩

end FramesFit

/- An initializer finds its receiver in the frame that it closes over, so that one is in both runs. -/
structure FunctionLike (ρ : Spelling) (w : World) (f f' : Function) : Prop where
  initializes : f'.isInitializer = f.isInitializer
  code : ∃ layers, w f.closure = some ⟨layers, f'.closure⟩ ∧ f.decl.Like ρ layers f'.decl ∧
    (f.isInitializer = true → Layer.innermost layers = some false)

structure MethodLike (ρ : Spelling) (w : World) (f f' : Function) : Prop where
  initializes : f'.isInitializer = f.isInitializer
  code : ∃ layers, w f.closure = some ⟨layers, f'.closure⟩ ∧ f.decl.Like ρ (.shared false :: layers) f'.decl

inductive CallableLike (ρ : Spelling) (w : World) : Callable → Callable → Prop where
  | function {f f'} (like : FunctionLike ρ w f f') : CallableLike ρ w (.function f) (.function f')
  | native {n} : CallableLike ρ w (.native n) (.native n)

inductive CalleeLike (ρ : Spelling) (w : World) : Callee → Callee → Prop where
  | callable {c c'} (like : CallableLike ρ w c c') : CalleeLike ρ w (.callable c) (.callable c')
  | construct {cls} : CalleeLike ρ w (.construct cls) (.construct cls)

structure ClassLike (ρ : Spelling) (w : World) (c c' : Class) : Prop where
  name : c'.name = c.name
  superclass : c'.superclass = c.superclass
  methods : ∀ name, Option.Rel (MethodLike ρ w) (c.methods.find? name) (c'.methods.find? name)
  classMethods : ∀ name, Option.Rel (FunctionLike ρ w) (c.classMethods.find? name) (c'.classMethods.find? name)

structure Twins (ρ : Spelling) (w : World) (m m' : Machine) : Prop where
  frames : FramesFit ρ w m.heap.frames m'.heap.frames
  callables : ∀ id, Option.Rel (CallableLike ρ w) (m.heap.callable? id) (m'.heap.callable? id)
  callableCount : m'.heap.callables.size = m.heap.callables.size
  classes : ∀ id, Option.Rel (ClassLike ρ w) (m.heap.class? id) (m'.heap.class? id)
  classCount : m'.heap.classes.size = m.heap.classes.size
  instances : m'.heap.instances = m.heap.instances
  globals : m'.globals = m.globals
  root : w m.globals = some ⟨[], m.globals⟩
  rootParent : m.heap.frames.parent? m.globals = none
  callDepth : m'.callDepth = m.callDepth
  lastValue : m'.lastValue = m.lastValue
  output : m'.output = m.output
  outputFault : m'.outputFault = m.outputFault
  clock : m'.clock = m.clock

end Treewalk
