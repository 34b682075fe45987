import Treewalk.Proofs.Mirror.Sessions
import Treewalk.Proofs.Twins.Rules

/-! Machines in which every link leads somewhere: such a machine is its own twin, and whatever a host asks of it, it
stays one. -/
namespace Treewalk

open World

structure Machine.Whole (m : Machine) : Prop where
  root : ∃ frame, m.heap.frames.frame? m.globals = some frame ∧ frame.parent = none
  here : ∃ frame, m.heap.frames.frame? m.environment = some frame
  parents : ∀ id frame parent, m.heap.frames.frame? id = some frame → frame.parent = some parent →
    ∃ outer, m.heap.frames.frame? parent = some outer
  functions : ∀ id f, m.heap.callable? id = some (.function f) → ∃ frame, m.heap.frames.frame? f.closure = some frame
  methods : ∀ id c name f, m.heap.class? id = some c →
    (c.methods.find? name = some f ∨ c.classMethods.find? name = some f) →
      ∃ frame, m.heap.frames.frame? f.closure = some frame

def Machine.world (m : Machine) : World := fun id => (m.heap.frames.frame? id).map fun _ => ⟨[], id⟩

theorem Machine.worldAt {m : Machine} {id : FrameId} {link : Link} (found : m.world id = some link) :
    link = ⟨[], id⟩ ∧ ∃ frame, m.heap.frames.frame? id = some frame := by
  obtain ⟨frame, here, rfl⟩ := Option.map_eq_some_iff.mp found
  exact ⟨rfl, frame, here⟩

theorem Machine.inWorld {m : Machine} {id : FrameId} (here : ∃ frame, m.heap.frames.frame? id = some frame) :
    m.world id = some ⟨[], id⟩ := by
  obtain ⟨frame, here⟩ := here
  exact Option.map_eq_some_iff.mpr ⟨frame, here, rfl⟩

theorem Machine.functionLike (ρ : Spelling) {m : Machine} {f : Function}
    (here : ∃ frame, m.heap.frames.frame? f.closure = some frame) : FunctionLike ρ m.world f f :=
  ⟨rfl, [], Machine.inWorld here, f.decl.likeSelf ρ Layer.plainNil, fun _ => rfl⟩

theorem Machine.methodLike (ρ : Spelling) {m : Machine} {f : Function}
    (here : ∃ frame, m.heap.frames.frame? f.closure = some frame) : MethodLike ρ m.world f f :=
  ⟨rfl, [], Machine.inWorld here, f.decl.likeSelf ρ Layer.plainNil.cons⟩

namespace Machine.Whole
variable {m : Machine} (whole : m.Whole) (ρ : Spelling)
include whole

theorem framesFit : FramesFit ρ m.world m.heap.frames m.heap.frames := by
  constructor
  · intro id link found
    obtain ⟨rfl, frame, here⟩ := Machine.worldAt found
    exact ⟨rfl, frame, here, here, fun parent up => Machine.inWorld (whole.parents id frame parent here up)⟩
  · intro id frame here
    exact ⟨_, Machine.inWorld ⟨frame, here⟩⟩
  · rintro renamed renamed' id other twin ⟨_, found, _⟩ ⟨_, found', _⟩
    obtain ⟨same, _⟩ := Machine.worldAt found
    obtain ⟨same', _⟩ := Machine.worldAt found'
    cases same
    cases same'
    rfl

theorem twins : Twins ρ m.world m m := by
  refine ⟨whole.framesFit ρ, ?_, rfl, ?_, rfl, rfl, rfl, ?_, ?_, rfl, rfl, rfl, rfl, rfl⟩
  · intro id
    cases found : m.heap.callable? id with
    | none => exact .none
    | some c =>
      cases c with
      | native n => exact .some .native
      | function f => exact .some (.function (Machine.functionLike ρ (whole.functions id f found)))
  · intro id
    cases found : m.heap.class? id with
    | none => exact .none
    | some c =>
      refine .some ⟨rfl, rfl, ?_, ?_⟩
      · intro name
        cases listed : c.methods.find? name with
        | none => exact .none
        | some f => exact .some (Machine.methodLike ρ (whole.methods id c name f found (.inl listed)))
      · intro name
        cases listed : c.classMethods.find? name with
        | none => exact .none
        | some f => exact .some (Machine.functionLike ρ (whole.methods id c name f found (.inr listed)))
  · obtain ⟨frame, here, _⟩ := whole.root
    exact Machine.inWorld ⟨frame, here⟩
  · obtain ⟨frame, here, top⟩ := whole.root
    rw [Frames.parent?, here]
    exact top

theorem level : Level m.world m m [] := Machine.inWorld whole.here

end Machine.Whole

namespace Twins
variable {ρ : Spelling} {w : World} {m m' : Machine}

theorem linked (t : Twins ρ w m m') {id parent : FrameId} {frame : Frame} (here : m.heap.frames.frame? id = some frame)
    (up : frame.parent = some parent) : ∃ link, w parent = some link := by
  obtain ⟨⟨layers, twin⟩, found⟩ := t.frames.covers id frame here
  have fits := t.frames.fits id _ found
  cases layers with
  | nil =>
    obtain ⟨_, frame', here', _, parents⟩ := fits
    cases here.symm.trans here'
    exact ⟨_, parents parent up⟩
  | cons layer layers =>
    cases layer with
    | shared renamed =>
      obtain ⟨_, _, _, here', _, inside⟩ := fits
      cases here.symm.trans here'
      cases up
      exact ⟨_, inside⟩
    | extra =>
      obtain ⟨_, here', inside⟩ := fits
      cases here.symm.trans here'
      cases up
      exact ⟨_, inside⟩

theorem closureKnown (t : Twins ρ w m m') {id : FunctionId} {f : Function}
    (found : m.heap.callable? id = some (.function f)) : ∃ link, w f.closure = some link := by
  have like := t.callables id
  rw [found] at like
  generalize m'.heap.callable? id = there at like
  cases like with
  | some like =>
    cases like with
    | function like =>
      obtain ⟨_, layers, known, _⟩ := like
      exact ⟨_, known⟩

theorem methodKnown (t : Twins ρ w m m') {id : ClassId} {c : Class} {name : String} {f : Function}
    (found : m.heap.class? id = some c) (listed : c.methods.find? name = some f ∨ c.classMethods.find? name = some f) :
    ∃ link, w f.closure = some link := by
  have like := t.classes id
  rw [found] at like
  generalize m'.heap.class? id = there at like
  cases like with
  | @some _ c' like =>
    cases listed with
    | inl listed =>
      have both := like.methods name
      rw [listed] at both
      generalize c'.methods.find? name = other at both
      cases both with
      | some like =>
        obtain ⟨_, layers, known, _⟩ := like
        exact ⟨_, known⟩
    | inr listed =>
      have both := like.classMethods name
      rw [listed] at both
      generalize c'.classMethods.find? name = other at both
      cases both with
      | some like =>
        obtain ⟨_, layers, known, _⟩ := like
        exact ⟨_, known⟩

theorem whole (t : Twins ρ w m m') (here : ∃ link, w m.environment = some link) : m.Whole := by
  have there : ∀ {id}, (∃ link, w id = some link) → ∃ frame, m.heap.frames.frame? id = some frame :=
    fun ⟨_, found⟩ => t.frames.known found
  constructor
  · obtain ⟨frame, found⟩ := t.frames.known t.root
    have top := t.rootParent
    rw [Frames.parent?, found] at top
    exact ⟨frame, found, top⟩
  · exact there here
  · exact fun id frame parent found up => there (t.linked found up)
  · exact fun id f found => there (t.closureKnown found)
  · exact fun id c name f found listed => there (t.methodKnown found listed)

end Twins

theorem Machine.initialWhole (milliseconds : Nat) : (Machine.initial milliseconds).Whole := by
  have fresh := Machine.initialFresh milliseconds
  obtain ⟨_, frame, here, top⟩ := Machine.initialIdle milliseconds
  refine ⟨⟨frame, here, top⟩, ⟨frame, here⟩, ?_, ?_, ?_⟩
  · intro id other parent found up
    have only : id = (Machine.initial milliseconds).globals := by
      obtain ⟨index⟩ := id
      have inside := (Array.getElem?_eq_some_iff.mp found).1
      exact congrArg FrameId.mk (Nat.lt_one_iff.mp inside)
    rw [only, here] at found
    cases found
    cases top.symm.trans up
  · exact fun id f found => absurd found (fresh.functions id f)
  · exact fun id c name f found => absurd found (fresh.classes id c)

theorem Tied.machines {ρ : Spelling} {w : World} {m m' : Machine} {action action' : Run α}
    (tied : Tied ρ w m m' action action' Same) : Option.Rel (fun n n' => ∃ v, After ρ w m m' v n n')
      ((action.finish m).map Prod.snd) ((action'.finish m').map Prod.snd) := by
  have both := tied.finish
  generalize action.finish m = final at both ⊢
  generalize action'.finish m' = final' at both ⊢
  cases both with
  | none => exact .none
  | some holds => exact .some holds.2

section Sessions
variable {w : World} {m m' : Machine} (t : Twins .same w m m') (level : Level w m m' [])
include t level

theorem serveTwins (limit : Nat) (request : Request) :
    Option.Rel (fun n n' => ∃ v, After .same w m m' v n n') (m.serve limit request) (m'.serve limit request) := by
  have mates := evaluatorMates .same limit
  cases request with
  | interpret program =>
    change Option.Rel _ ((m.interpret limit program).map Prod.snd) ((m'.interpret limit program).map Prod.snd)
    unfold Machine.interpret
    split
    · rename_i resolved _
      have tied := mates.execProgram t level (Stmt.likeSelfAll _ resolved Layer.plainNil)
      rw [Option.map_map, Option.map_map]
      exact tied.machines
    · exact .some ⟨w, .refl t⟩
  | execute program => exact (mates.execProgram t level (Stmt.likeSelfAll _ program Layer.plainNil)).machines
  | evaluate e => exact (mates.eval t level (e.likeSelf _ Layer.plainNil)).machines
  | call callee arguments line =>
    change Option.Rel _ ((m.callValue limit callee arguments line).map Prod.snd)
      ((m'.callValue limit callee arguments line).map Prod.snd)
    unfold Machine.callValue
    have like := t.callee callee
    generalize m.heap.callee? callee = target at like ⊢
    generalize m'.heap.callee? callee = target' at like ⊢
    cases like with
    | none => exact .some ⟨w, .refl t⟩
    | some like =>
      dsimp only
      rw [Option.map_map, Option.map_map]
      exact (mates.call t like arguments line).machines
  | define name value =>
    refine .some ⟨w, .refl w, ?_, rfl, rfl⟩
    have mate : w.Mate false m.globals m'.globals := ⟨[], by rw [t.globals]; exact t.root, rfl⟩
    exact t.define mate name value

theorem sessionTwins (limit : Nat) (requests : List Request) :
    Option.Rel (fun n n' => ∃ v, After .same w m m' v n n') (requests.foldlM (Machine.serve limit) m)
      (requests.foldlM (Machine.serve limit) m') := by
  induction requests generalizing w m m' with
  | nil => exact .some ⟨w, .refl t⟩
  | cons request requests ih =>
    rw [List.foldlM_cons, List.foldlM_cons]
    have first := serveTwins t level limit request
    generalize m.serve limit request = served at first ⊢
    generalize m'.serve limit request = served' at first ⊢
    cases first with
    | none => exact .none
    | some both =>
      obtain ⟨v, after⟩ := both
      have rest := ih after.twins (after.level level)
      exact relLater (fun ⟨u, later⟩ => ⟨u, after.trans later⟩) rest

end Sessions

theorem sessionWhole {limit : Nat} {m m' : Machine} {requests : List Request} (whole : m.Whole)
    (served : requests.foldlM (Machine.serve limit) m = some m') : m'.Whole := by
  have both := sessionTwins (whole.twins .same) whole.level limit requests
  rw [served] at both
  cases both with
  | some both =>
    obtain ⟨v, after⟩ := both
    exact after.twins.whole ⟨_, after.level whole.level⟩

end Treewalk
