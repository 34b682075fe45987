import Treewalk.Proofs.Frames
import Treewalk.Proofs.Trace
import Treewalk.Proofs.Places.Located

/-! Frames against scopes. `FrameChain` says that a line of frames leads from the inside out through one activation of
each scope to the globals, and that a name whose declaration is complete is bound. `Agrees` says so of everything
a machine holds on to: what it runs, what its functions and methods close over, and what has been recorded. -/
namespace Treewalk

/- Every name of a scope whose declaration is complete is bound in its frame. The class side of a class is known to
its scope as having `this`, which its frame never binds. -/
inductive FrameChain (s : Observed) : List Scope → List Site → FrameId → Prop where
  | globals : FrameChain s [] [] s.machine.globals
  | inner {scope scopes site sites frame parent} (made : s.shadow.sites frame = some site)
      (link : s.frames.parent? frame = some parent)
      (bound : ∀ name, scope.find? name = some true →
        s.frames.contains frame name = true ∨ (site.role = .classSide ∧ name = "this"))
      (outer : FrameChain s scopes sites parent) : FrameChain s (scope :: scopes) (site :: sites) frame

structure Grows (s s' : Observed) : Prop where
  globals : s'.machine.globals = s.machine.globals
  frames : ∀ id frame, s.frames.frame? id = some frame → s'.shadow.sites id = s.shadow.sites id ∧
    ∃ frame', s'.frames.frame? id = some frame' ∧ frame'.parent = frame.parent ∧
      ∀ name, frame.bindings.contains name = true → frame'.bindings.contains name = true

namespace Grows

theorem refl (s : Observed) : Grows s s :=
  ⟨rfl, fun _ frame found => ⟨rfl, frame, found, rfl, fun _ bound => bound⟩⟩

theorem trans {s s' s'' : Observed} (first : Grows s s') (second : Grows s' s'') : Grows s s'' := by
  constructor
  · exact second.globals.trans first.globals
  · intro id frame found
    obtain ⟨site, frame', found', parent, bound⟩ := first.frames id frame found
    obtain ⟨site', frame'', found'', parent', bound'⟩ := second.frames id frame' found'
    exact ⟨site'.trans site, frame'', found'', parent'.trans parent, fun name here => bound' name (bound name here)⟩

theorem contains {s s' : Observed} (grows : Grows s s') {id : FrameId} {name : String}
    (h : s.frames.contains id name = true) : s'.frames.contains id name = true := by
  obtain ⟨frame, found, bound⟩ := Frames.containsFrame h
  obtain ⟨_, frame', found', _, kept⟩ := grows.frames id frame found
  rw [Frames.frameContains found']
  exact kept name bound

theorem parent {s s' : Observed} (grows : Grows s s') {id parent : FrameId}
    (h : s.frames.parent? id = some parent) : s'.frames.parent? id = some parent := by
  obtain ⟨frame, found, up⟩ := Frames.parentFrame h
  obtain ⟨_, frame', found', same, _⟩ := grows.frames id frame found
  simp [Frames.parent?, found', same, up]

end Grows

theorem FrameChain.grow {s s' : Observed} {scopes : List Scope} {sites : List Site} {frame : FrameId}
    (chain : FrameChain s scopes sites frame) (grows : Grows s s') : FrameChain s' scopes sites frame := by
  induction chain with
  | globals =>
    rw [← grows.globals]
    exact .globals
  | inner made link bound outer ih =>
    obtain ⟨frame, found, _⟩ := Frames.parentFrame link
    have site := (grows.frames _ frame found).1.trans made
    exact .inner site (grows.parent link) (fun name here => (bound name here).imp grows.contains id) ih

structure Setting where
  programs : List Program
  older : Prop
  proper : ∀ p ∈ programs, Stmt.ProperAll p
  accepted : ∀ p ∈ programs, p.resolve.2 = []

/- The frames have caught up with the scopes of a place, or at least with what a name read there needs: a class is
complete in its scope before its superclass is read, but bound only afterwards. -/
def Stands (s : Observed) (place : Place) (node : Phrase) : Prop :=
  ∃ scopes, FrameChain s scopes place.sites s.machine.environment ∧ (scopes = place.context.scopes ∨
    ∃ name depth, node = .expr (.var name depth) ∧
      scopes.map (·.find? name.name) = place.context.scopes.map (·.find? name.name))

structure Framed (programs : List Program) (s : Observed) : Prop where
  root : ∃ frame, s.frames.frame? s.machine.globals = some frame ∧ frame.parent = none
  rootSite : s.shadow.sites s.machine.globals = none
  names : ∀ id site name, s.shadow.sites id = some site → s.frames.contains id name = true →
    name ∈ siteNames programs site

namespace Setting
variable (g : Setting)

def FunctionAt (s : Observed) (address : Address) (f : Function) : Prop :=
  ∃ place kind decl, Located g.programs address place (.function kind decl) ∧
    f.decl = (decl.resolve kind).result place.context ∧ FrameChain s place.context.scopes place.sites f.closure

/- A method closes over the frame around its class; the scope of the class gets its frame with the receiver. -/
def MethodAt (s : Observed) (address : Address) (f : Function) : Prop :=
  ∃ index outer place kind decl scopes sites, address = .method index :: outer ∧
    Located g.programs address place (.function kind decl) ∧ f.decl = (decl.resolve kind).result place.context ∧
    place.context.scopes = .ofThis :: scopes ∧ place.sites = ⟨outer, .receiver⟩ :: sites ∧
    FrameChain s scopes sites f.closure

def OfFunction (s : Observed) : Option Address → Function → Prop
  | none, _ => g.older
  | some address, f => g.FunctionAt s address f

def OfMethod (s : Observed) : Option Address → Function → Prop
  | none, _ => g.older
  | some address, f => g.MethodAt s address f

structure OfClass (s : Observed) (methods classMethods : Table Address) (c : Class) : Prop where
  methods : ∀ name f, c.methods.find? name = some f → g.OfMethod s (methods.find? name) f
  classMethods : ∀ name f, c.classMethods.find? name = some f → g.OfFunction s (classMethods.find? name) f

/- Code older than the session runs in frames of its own. -/
def Outside (s : Observed) : Prop :=
  g.older ∧ s.shadow.sites s.machine.environment = none ∧
    ∃ frame, s.frames.frame? s.machine.environment = some frame

def NodeAt (s : Observed) (address : Option Address) (node : Phrase) : Prop :=
  match address with
  | none => g.Outside s
  | some address => ∃ place phrase, Located g.programs address place phrase ∧
      node = phrase.resolve.result place.context ∧ Stands s place node

def Recorded (e : Event) : Prop :=
  Framed g.programs ⟨e.machine, { Shadow.none with sites := e.sites }⟩ ∧
    g.NodeAt ⟨e.machine, { Shadow.none with sites := e.sites }⟩ e.address e.node

structure Agrees (s : Observed) : Prop where
  framed : Framed g.programs s
  functions : ∀ id f, s.machine.heap.callable? id = some (.function f) → g.OfFunction s (s.shadow.functions id) f
  classes : ∀ id c, s.machine.heap.class? id = some c →
    g.OfClass s (s.shadow.methods id) (s.shadow.classMethods id) c
  events : ∀ e ∈ s.shadow.events, g.Recorded e

variable {g}

theorem OfFunction.grow {s s' : Observed} {origin : Option Address} {f : Function} (h : g.OfFunction s origin f)
    (grows : Grows s s') : g.OfFunction s' origin f := by
  cases origin with
  | none => exact h
  | some address =>
    obtain ⟨place, kind, decl, located, same, chain⟩ := h
    exact ⟨place, kind, decl, located, same, chain.grow grows⟩

theorem OfMethod.grow {s s' : Observed} {origin : Option Address} {f : Function} (h : g.OfMethod s origin f)
    (grows : Grows s s') : g.OfMethod s' origin f := by
  cases origin with
  | none => exact h
  | some address =>
    obtain ⟨index, outer, place, kind, decl, scopes, sites, way, located, same, inner, site, chain⟩ := h
    exact ⟨index, outer, place, kind, decl, scopes, sites, way, located, same, inner, site, chain.grow grows⟩

theorem OfClass.grow {s s' : Observed} {methods classMethods : Table Address} {c : Class}
    (h : g.OfClass s methods classMethods c) (grows : Grows s s') : g.OfClass s' methods classMethods c :=
  ⟨fun name f found => (h.methods name f found).grow grows,
    fun name f found => (h.classMethods name f found).grow grows⟩

theorem Outside.grow {s s' : Observed} (h : g.Outside s) (grows : Grows s s')
    (same : s'.machine.environment = s.machine.environment) : g.Outside s' := by
  obtain ⟨older, site, frame, found⟩ := h
  obtain ⟨site', frame', found', _⟩ := grows.frames _ frame found
  unfold Outside
  rw [same]
  exact ⟨older, site'.trans site, frame', found'⟩

theorem NodeAt.grow {s s' : Observed} {address : Option Address} {node : Phrase} (h : g.NodeAt s address node)
    (grows : Grows s s') (same : s'.machine.environment = s.machine.environment) : g.NodeAt s' address node := by
  cases address with
  | none => exact Outside.grow h grows same
  | some address =>
    obtain ⟨place, phrase, located, resolved, scopes, chain, reflects⟩ := h
    refine ⟨place, phrase, located, resolved, scopes, ?_, reflects⟩
    rw [same]
    exact chain.grow grows

theorem Agrees.extend {s s' : Observed} (old : g.Agrees s) (grows : Grows s s') (framed : Framed g.programs s')
    (functions : ∀ id f, s'.machine.heap.callable? id = some (.function f) →
      (s.machine.heap.callable? id = some (.function f) ∧ s'.shadow.functions id = s.shadow.functions id) ∨
      g.OfFunction s' (s'.shadow.functions id) f)
    (classes : ∀ id c, s'.machine.heap.class? id = some c →
      (s.machine.heap.class? id = some c ∧ s'.shadow.methods id = s.shadow.methods id ∧
        s'.shadow.classMethods id = s.shadow.classMethods id) ∨
      g.OfClass s' (s'.shadow.methods id) (s'.shadow.classMethods id) c)
    (events : s'.shadow.events = s.shadow.events) : g.Agrees s' := by
  constructor
  · exact framed
  · intro id f found
    obtain ⟨before, same⟩ | new := functions id f found
    · rw [same]
      exact (old.functions id f before).grow grows
    · exact new
  · intro id c found
    obtain ⟨before, same, same'⟩ | new := classes id c found
    · rw [same, same']
      exact (old.classes id c before).grow grows
    · exact new
  · rw [events]
    exact old.events

structure Later (s s' : Observed) : Prop where
  grows : Grows s s'
  environment : s'.machine.environment = s.machine.environment

namespace Later

theorem refl (s : Observed) : Later s s := ⟨.refl s, rfl⟩

theorem trans {s s' s'' : Observed} (first : Later s s') (second : Later s' s'') : Later s s'' :=
  ⟨first.grows.trans second.grows, second.environment.trans first.environment⟩

end Later

theorem NodeAt.later {s s' : Observed} {address : Option Address} {node : Phrase} (h : g.NodeAt s address node)
    (later : Later s s') : g.NodeAt s' address node :=
  h.grow later.grows later.environment

end Setting

structure Alike (m m' : Machine) : Prop where
  frames : m'.heap.frames = m.heap.frames
  callables : m'.heap.callables = m.heap.callables
  classes : m'.heap.classes = m.heap.classes
  globals : m'.globals = m.globals

theorem Grows.alike {s : Observed} {m : Machine} (alike : Alike s.machine m) : Grows s { s with machine := m } := by
  constructor
  · exact alike.globals
  · intro id frame found
    have same : Observed.frames { s with machine := m } = s.frames := alike.frames
    rw [same]
    exact ⟨rfl, frame, found, rfl, fun _ bound => bound⟩

theorem Framed.alike {programs : List Program} {s : Observed} {m : Machine} (framed : Framed programs s)
    (alike : Alike s.machine m) : Framed programs { s with machine := m } := by
  have same : Observed.frames { s with machine := m } = s.frames := alike.frames
  constructor
  · rw [same]
    simpa only [alike.globals] using framed.root
  · simpa only [alike.globals] using framed.rootSite
  · rw [same]
    exact framed.names

namespace Setting
variable {g : Setting}

theorem Agrees.alike {s : Observed} {m : Machine} (agrees : g.Agrees s) (alike : Alike s.machine m) :
    g.Agrees { s with machine := m } := by
  apply agrees.extend (.alike alike) (agrees.framed.alike alike)
  · intro id f found
    simp only [Heap.callable?, alike.callables] at found
    exact .inl ⟨found, rfl⟩
  · intro id c found
    simp only [Heap.class?, alike.classes] at found
    exact .inl ⟨found, rfl, rfl⟩
  · rfl

end Setting
end Treewalk
