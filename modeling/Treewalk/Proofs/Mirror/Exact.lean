import Treewalk.Proofs.Mirror.Sessions
import Treewalk.Proofs.Scanned
import Treewalk.Proofs.Slots

/-! Static scopes mirror frames: around every node that is run stand the frames of just the scopes that were open
when the node was resolved, in their order, and then the globals. -/
namespace Treewalk

open Walk

namespace FrameChain
variable {s : Observed} {scopes : List Scope} {sites : List Site} {frame : FrameId}

theorem count (chain : FrameChain s scopes sites frame) : sites.length = scopes.length := by
  induction chain with
  | globals => rfl
  | inner made link bound outer ih => simp only [List.length_cons, ih]

theorem root (chain : FrameChain s scopes sites frame) :
    s.frames.ancestor? frame scopes.length = some s.machine.globals := by
  induction chain with
  | globals => rfl
  | inner made link bound outer ih => simp only [List.length_cons, Frames.ancestor?, link, Option.bind_some, ih]

theorem outward (chain : FrameChain s scopes sites frame) {depth : Nat} {scope : Scope}
    (there : scopes[depth]? = some scope) :
    ∃ site frame', sites[depth]? = some site ∧ s.frames.ancestor? frame depth = some frame' ∧
      s.shadow.sites frame' = some site ∧ ∀ name, scope.find? name = some true →
        s.frames.contains frame' name = true ∨ (site.role = .classSide ∧ name = "this") := by
  induction chain generalizing depth with
  | globals => cases there
  | @inner innermost scopes site sites frame parent made link bound outer ih =>
    cases depth with
    | zero =>
      cases there
      exact ⟨site, frame, rfl, rfl, made, bound⟩
    | succ depth =>
      obtain ⟨site', frame', here, reached, made', bound'⟩ := ih there
      refine ⟨site', frame', here, ?_, made', bound'⟩
      simp only [Frames.ancestor?, link, Option.bind_some, reached]

end FrameChain

def Event.frames (e : Event) : Frames := e.machine.heap.frames

/- The frames around a node, from the inside out, when the scopes of a place are open. -/
structure Mirrors (programs : List Program) (e : Event) (place : Place) : Prop where
  count : place.sites.length = place.context.scopes.length
  scopes : ∀ (index : Nat) (site : Site) (scope : Scope), place.sites[index]? = some site →
    place.context.scopes[index]? = some scope → ∀ name, scope.contains name = true →
      name ∈ siteNames programs site ∨ (site.role = .classSide ∧ name = "this")
  frames : ∀ index site, place.sites[index]? = some site →
    ∃ frame, e.frames.ancestor? e.machine.environment index = some frame ∧ frame ≠ e.machine.globals ∧
      e.sites frame = some site ∧
      ∀ name, e.frames.contains frame name = true → name ∈ siteNames programs site
  globals : e.frames.ancestor? e.machine.environment place.context.scopes.length = some e.machine.globals
  outermost : e.frames.parent? e.machine.globals = none

namespace Setting
variable {g : Setting} {e : Event}

theorem Recorded.mirrors {address : Address} (recorded : g.Recorded e) (known : e.address = some address) :
    ∃ place phrase, Located g.programs address place phrase ∧ e.node = phrase.resolve.result place.context ∧
      Mirrors g.programs e place := by
  obtain ⟨framed, here⟩ := recorded
  rw [known] at here
  obtain ⟨place, phrase, located, same, scopes, chain, reflects⟩ := here
  have length : scopes.length = place.context.scopes.length := by
    obtain rfl | ⟨name, depth, _, lookups⟩ := reflects
    · rfl
    · simpa only [List.length_map] using congrArg List.length lookups
  refine ⟨place, phrase, located, same, chain.count.trans length, ?_, ?_, ?_, ?_⟩
  · intro index site scope siteThere scopeThere name known
    obtain ⟨complete, found⟩ := Option.isSome_iff_exists.mp known
    exact (fitsAt (locatedFits located) siteThere scopeThere).declared name complete found
  · intro index site here
    have inside : index < scopes.length := by
      rw [← chain.count]
      exact (List.getElem?_eq_some_iff.mp here).1
    obtain ⟨site', frame, here', reached, made, _⟩ := chain.outward (List.getElem?_eq_getElem inside)
    cases here.symm.trans here'
    refine ⟨frame, reached, ?_, made, fun name bound => framed.names frame site name made bound⟩
    intro same
    rw [same, framed.rootSite] at made
    cases made
  · rw [← length]
    exact chain.root
  · obtain ⟨frame, found, top⟩ := framed.root
    exact (congrArg (Option.bind · Frame.parent) found).trans top

theorem Recorded.fresh (recorded : g.Recorded e) (unknown : e.address = none) : g.older := by
  have here := recorded.2
  rw [unknown] at here
  exact here.1

end Setting

/- Every node that is run was resolved at the place that its address leads to, and the frames current then mirror the
scopes of that place; a slot leads to the frame of the scope that it was counted to. Without the record the session is
what the machine makes of the programs, and only code from before the session has no address. -/
theorem scopesMirrorFrames {programs : List Program} {m : Machine} (limit : Nat) (idle : m.Idle)
    (parsed : ∀ p ∈ programs, ∃ source, Source.program source = .ok p)
    (accepted : ∀ p ∈ programs, p.resolve.2 = []) :
    ended (watchSession limit 0 programs ⟨m, .none⟩) = m.interpretAll limit programs ∧
    ∀ e ∈ m.events limit programs, (m.Fresh → e.address ≠ none) ∧
      ∀ address, e.address = some address → ∃ place phrase, locate programs address = some (place, phrase) ∧
        e.node = phrase.resolve.result place.context ∧ Mirrors programs e place ∧
        ∀ name depth, e.node.local? = some (name, depth) →
          place.context.scopes.findIdx? (·.contains name.name) = some depth ∧
          ∃ site frame, place.sites[depth]? = some site ∧
            e.frames.ancestor? e.machine.environment depth = some frame ∧ frame ≠ e.machine.globals ∧
            e.sites frame = some site := by
  have proper := parsedProper parsed
  refine ⟨eraseSession limit accepted 0 _, ?_⟩
  intro e member
  have recorded := Setting.sessionRecorded limit idle proper accepted e member
  refine ⟨fun fresh unknown => recorded.fresh unknown fresh, ?_⟩
  intro address known
  obtain ⟨place, phrase, located, same, mirrors⟩ := recorded.mirrors known
  refine ⟨place, phrase, located.locate, same, mirrors, ?_⟩
  intro name depth used
  rw [same] at used
  obtain ⟨_, counted⟩ := localUse (locatedProper proper located) used
  have inside : depth < place.sites.length := by
    rw [mirrors.count]
    exact (List.findIdx?_eq_some_iff_getElem.mp counted).1
  have there := List.getElem?_eq_getElem inside
  obtain ⟨frame, reached, other, made, _⟩ := mirrors.frames depth _ there
  exact ⟨counted, _, frame, there, reached, other, made⟩

/- A function made in a method and called when the method has returned. -/
def boxText : String := "class Box \x7b get() \x7b return fun () \x7b this; \x7d; \x7d \x7d Box().get()();"

def boxProgram : Program :=
  [.classDecl ⟨⟨"Box", 1⟩, none,
    [⟨some ⟨"get", 1⟩, [], [.returnStmt ⟨"return", 1⟩ (some (.lambda
      ⟨none, [], [.expression (.this ⟨"this", 1⟩ none)], 1⟩))], 1⟩], []⟩,
    .expression (.call (.call (.get (.call (.var ⟨"Box", 1⟩ none) [] 1) ⟨"get", 1⟩) [] 1) [] 1)]

def boxReceiver : Address := [.item 0, .item 0, .function, .item 0, .item 0, .method 0, .item 0, .program 0]

theorem boxParsed : Source.program boxText = .ok boxProgram := readAs (by decide +kernel)

theorem boxAccepted : boxProgram.resolve.2 = [] := by decide

theorem boxReached :
    ((Machine.initial 0).events 9 [boxProgram]).head?.map Event.address = some (some boxReceiver) := by decide +kernel

theorem boxMirrored : (Machine.initial 0).Idle ∧ Source.program boxText = .ok boxProgram ∧
    boxProgram.resolve.2 = [] ∧ (∀ e ∈ (Machine.initial 0).events 9 [boxProgram], e.address ≠ none) ∧
    ∃ e ∈ (Machine.initial 0).events 9 [boxProgram], e.address = some boxReceiver ∧
      ∃ place phrase, locate [boxProgram] boxReceiver = some (place, phrase) ∧ Mirrors [boxProgram] e place := by
  have mirrored := scopesMirrorFrames 9 (Machine.initialIdle 0)
    (List.forall_mem_singleton.mpr ⟨boxText, boxParsed⟩) (List.forall_mem_singleton.mpr boxAccepted)
  refine ⟨Machine.initialIdle 0, boxParsed, boxAccepted, ?_, ?_⟩
  · exact fun e member => (mirrored.2 e member).1 (Machine.initialFresh 0)
  obtain ⟨e, head, address⟩ := Option.map_eq_some_iff.mp boxReached
  have member := List.mem_of_head? head
  obtain ⟨place, phrase, located, _, mirrors, _⟩ := (mirrored.2 e member).2 boxReceiver address
  exact ⟨e, member, address, place, phrase, located, mirrors⟩

end Treewalk
