import Treewalk.Proofs.Mirror.Exact

/-! Names with slots are bound when they are used. The frame that a slot leads to has the name, unless the use is inside
the initializer that the name is waiting for, or is a `this` that a function hides from the class method around it. -/
namespace Treewalk

def Event.Succeeds (e : Event) : Prop :=
  match e.node with
  | .expr (.var name depth) => ∃ value, Run.lookUp name depth e.machine = .ok value e.machine
  | .expr (.this keyword depth) => ∃ value, Run.lookUp keyword depth e.machine = .ok value e.machine
  | .expr (.assign name _ depth) => ∀ value, ∃ m, Run.assign name value depth e.machine = .ok () m
  | _ => True

section
variable {m : Machine} {name : Ident} {depth : Nat} {frame : FrameId}

theorem lookUpBound (reached : m.heap.frames.ancestor? m.environment depth = some frame)
    (bound : m.heap.frames.contains frame name.name = true) :
    ∃ value, Run.lookUp name (some depth) m = .ok value m := by
  obtain ⟨value, found⟩ := Option.isSome_iff_exists.mp bound
  refine ⟨value, ?_⟩
  simp only [Run.lookUp, Frames.getAt, reached, Option.bind_some, found]
  rfl

theorem assignBound (reached : m.heap.frames.ancestor? m.environment depth = some frame)
    (bound : m.heap.frames.contains frame name.name = true) (value : Value) :
    ∃ m', Run.assign name value (some depth) m = .ok () m' := by
  have holder : Run.holder? name (some depth) m = .ok (some frame) m := by
    simp only [Run.holder?, Frames.holder?, reached, Option.filter_some, bound, if_true]
  exact ⟨_, assignHolder holder value⟩

end

theorem Event.succeeds {e : Event} {name : Ident} {depth : Nat} {frame : FrameId}
    (used : e.node.local? = some (name, depth))
    (reached : e.frames.ancestor? e.machine.environment depth = some frame)
    (bound : e.frames.contains frame name.name = true) : e.Succeeds := by
  unfold Event.Succeeds
  split
  · rename_i node
    rw [node] at used
    obtain ⟨_, rfl, same⟩ := Option.map_eq_some_iff.mp used
    cases same
    exact lookUpBound reached bound
  · rename_i node
    rw [node] at used
    obtain ⟨_, rfl, same⟩ := Option.map_eq_some_iff.mp used
    cases same
    exact lookUpBound reached bound
  · rename_i node
    rw [node] at used
    obtain ⟨_, rfl, same⟩ := Option.map_eq_some_iff.mp used
    cases same
    exact assignBound reached bound
  · trivial

theorem Stands.lookups {s : Observed} {place : Place} {node : Phrase} {name : Ident} {depth : Nat}
    (stands : Stands s place node) (used : node.local? = some (name, depth)) :
    ∃ scopes, FrameChain s scopes place.sites s.machine.environment ∧
      scopes.map (·.find? name.name) = place.context.scopes.map (·.find? name.name) := by
  obtain ⟨scopes, chain, rfl | ⟨ident, slot, rfl, same⟩⟩ := stands
  · exact ⟨_, chain, rfl⟩
  · obtain ⟨_, _, same'⟩ := Option.map_eq_some_iff.mp used
    cases same'
    exact ⟨scopes, chain, same⟩

/- The uses that may come too early: inside the initializer of the name itself, to assign it or from inside a
function. -/
def Premature (programs : List Program) (address : Address) (site : Site) (name : Ident) (phrase : Phrase) : Prop :=
  ∃ inner, InOwnInitializer programs address inner site name.name ∧
    (.function ∈ inner ∨ ∃ value, phrase = .expr (.assign name value none))

/- A receiver where there is none: inside a function in a method of the class itself. -/
def WithoutReceiver (address : Address) (name : Ident) (phrase : Phrase) : Prop :=
  phrase = .expr (.this name none) ∧ ∃ inner, InClassMethod address inner ∧ .function ∈ inner

namespace Setting
variable {g : Setting} {e : Event}

theorem Recorded.succeeds {address : Address} {name : Ident} {depth : Nat} (recorded : g.Recorded e)
    (known : e.address = some address) (used : e.node.local? = some (name, depth)) :
    ∃ place phrase site, Located g.programs address place phrase ∧ e.node = phrase.resolve.result place.context ∧
      place.sites[depth]? = some site ∧
      (e.Succeeds ∨ Premature g.programs address site name phrase ∨ WithoutReceiver address name phrase) := by
  obtain ⟨framed, here⟩ := recorded
  rw [known] at here
  obtain ⟨place, phrase, located, same, stands⟩ := here
  obtain ⟨scopes, chain, lookups⟩ := stands.lookups used
  have used' := used
  rw [same] at used'
  obtain ⟨uses, counted⟩ := localUse (locatedProper g.proper located) used'
  obtain ⟨inside, contains, _⟩ := List.findIdx?_eq_some_iff_getElem.mp counted
  have scopeThere := List.getElem?_eq_getElem inside
  obtain ⟨complete, found⟩ := Option.isSome_iff_exists.mp contains
  -- the scope that the frame shows knows as much of the name as the scope that was counted
  have shown : (scopes.map (·.find? name.name))[depth]? = some (some complete) := by
    rw [lookups, List.getElem?_map, scopeThere, Option.map_some, found]
  rw [List.getElem?_map] at shown
  obtain ⟨scope, scopeShown, found'⟩ := Option.map_eq_some_iff.mp shown
  obtain ⟨site, frame, siteThere, reached, made, bound⟩ := chain.outward scopeShown
  refine ⟨place, phrase, site, located, same, siteThere, ?_⟩
  cases complete with
  | false => exact .inr (.inl (incompleteUse g.proper g.accepted located uses counted siteThere scopeThere found))
  | true =>
    obtain here | ⟨classSide, spelled⟩ := bound name.name found'
    · exact .inl (Event.succeeds used reached here)
    · exact .inr (.inr (classSideUse located uses counted siteThere classSide spelled))

end Setting

/- Whatever is run in a session, a name with a slot is bound in the frame that the slot leads to, with two exceptions. -/
theorem localsDefined {programs : List Program} {m : Machine} (limit : Nat) (idle : m.Idle)
    (parsed : ∀ p ∈ programs, ∃ source, Source.program source = .ok p)
    (accepted : ∀ p ∈ programs, p.resolve.2 = []) :
    ended (watchSession limit 0 programs ⟨m, .none⟩) = m.interpretAll limit programs ∧
    ∀ e ∈ m.events limit programs, (m.Fresh → e.address ≠ none) ∧
      ∀ address, e.address = some address → ∀ name depth, e.node.local? = some (name, depth) →
        ∃ place phrase site, locate programs address = some (place, phrase) ∧
          e.node = phrase.resolve.result place.context ∧ place.sites[depth]? = some site ∧
          (e.Succeeds ∨ Premature programs address site name phrase ∨ WithoutReceiver address name phrase) := by
  have proper := parsedProper parsed
  refine ⟨eraseSession limit accepted 0 _, ?_⟩
  intro e member
  have recorded := Setting.sessionRecorded limit idle proper accepted e member
  refine ⟨fun fresh unknown => recorded.fresh unknown fresh, ?_⟩
  intro address known name depth used
  obtain ⟨place, phrase, site, located, same, there, outcome⟩ := recorded.succeeds known used
  exact ⟨place, phrase, site, located.locate, same, there, outcome⟩

-- a name that is assigned in its own initializer, and the receiver of a function in a class method
example : ((Machine.initial 0).interpret 9 [.block [.varDecl ⟨"a", 1⟩
    (some (.assign ⟨"a", 1⟩ (.literal .nil 1) none))]]).map (·.1.diagnostics) =
    some [.runtime ⟨1, .undefinedVariable "a"⟩] := by decide +kernel

example : ((Machine.initial 0).interpret 9 [.classDecl ⟨⟨"A", 1⟩, none, [], [⟨some ⟨"f", 1⟩, [],
    [.expression (.call (.lambda ⟨none, [], [.expression (.this ⟨"this", 1⟩ none)], 1⟩) [] 1)], 1⟩]⟩,
    .expression (.call (.get (.var ⟨"A", 1⟩ none) ⟨"f", 1⟩) [] 1)]).map (·.1.diagnostics) =
    some [.runtime ⟨1, .undefinedVariable "this"⟩] := by decide +kernel

def cellText : String := "\x7b var a; fun f(b) \x7b a = b; \x7d f(nil); \x7d"

def cellProgram : Program :=
  [.block [.varDecl ⟨"a", 1⟩ none,
    .funDecl ⟨some ⟨"f", 1⟩, [⟨"b", 1⟩], [.expression (.assign ⟨"a", 1⟩ (.var ⟨"b", 1⟩ none) none)], 1⟩,
    .expression (.call (.var ⟨"f", 1⟩ none) [.literal .nil 1] 1)]]

def cellAssignment : Address := [.item 0, .item 0, .function, .item 1, .item 0, .program 0]

theorem cellParsed : Source.program cellText = .ok cellProgram := readAs (by decide +kernel)

theorem cellAccepted : cellProgram.resolve.2 = [] := by decide

theorem cellReached : ((Machine.initial 0).events 9 [cellProgram]).head?.map (fun e => (e.address, e.node.local?)) =
    some (some cellAssignment, some (⟨"a", 1⟩, 2)) := by decide +kernel

theorem cellDefined : (Machine.initial 0).Idle ∧ Source.program cellText = .ok cellProgram ∧
    cellProgram.resolve.2 = [] ∧ ∃ e ∈ (Machine.initial 0).events 9 [cellProgram],
      e.address = some cellAssignment ∧ e.node.local? = some (⟨"a", 1⟩, 2) ∧ e.Succeeds := by
  refine ⟨Machine.initialIdle 0, cellParsed, cellAccepted, ?_⟩
  obtain ⟨e, head, same⟩ := Option.map_eq_some_iff.mp cellReached
  obtain ⟨address, used⟩ := Prod.ext_iff.mp same
  have member := List.mem_of_head? head
  have defined := localsDefined 9 (Machine.initialIdle 0)
    (List.forall_mem_singleton.mpr ⟨cellText, cellParsed⟩) (List.forall_mem_singleton.mpr cellAccepted)
  obtain ⟨place, phrase, site, _, _, _, outcome⟩ := (defined.2 e member).2 cellAssignment address _ _ used
  refine ⟨e, member, address, used, ?_⟩
  obtain succeeds | ⟨inner, ⟨outer, _, _, _, way, _⟩, _⟩ | ⟨_, inner, ⟨index, outer, way, _⟩, _⟩ := outcome
  · exact succeeds
  · have absent : .initializer ∉ cellAssignment := by decide
    rw [way] at absent
    exact absurd (List.mem_append_right inner List.mem_cons_self) absent
  · have absent : ∀ step ∈ cellAssignment, step.ofMember = false := by decide
    rw [way] at absent
    exact nomatch absent _ (List.mem_append_right inner List.mem_cons_self)

end Treewalk
