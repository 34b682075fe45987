import Treewalk.Proofs.Mirror

/-! What the elementary actions of a machine do to its frames and its code. -/
namespace Treewalk

namespace Setting
variable {g : Setting}

theorem Agrees.record {s : Observed} {address : Option Address} {node : Phrase} (agrees : g.Agrees s)
    (here : g.NodeAt s address node) (moment : Moment) : g.Agrees (s.record address node moment) := by
  have kept : g.Recorded ⟨address, node, moment, s.machine, s.shadow.sites⟩ :=
    ⟨⟨agrees.framed.root, agrees.framed.rootSite, agrees.framed.names⟩,
      here.grow ⟨rfl, (Grows.refl s).frames⟩ rfl⟩
  have same : Grows s (s.record address node moment) := ⟨rfl, (Grows.refl s).frames⟩
  constructor
  · exact ⟨agrees.framed.root, agrees.framed.rootSite, agrees.framed.names⟩
  · exact fun id f found => (agrees.functions id f found).grow same
  · exact fun id c found => (agrees.classes id c found).grow same
  · exact List.forall_mem_cons.mpr ⟨kept, agrees.events⟩

theorem laterRecord (s : Observed) (address : Option Address) (node : Phrase) (moment : Moment) :
    Later s (s.record address node moment) :=
  ⟨⟨rfl, (Grows.refl s).frames⟩, rfl⟩

section Define
variable {s : Observed} {frame : FrameId} {name : String} {value : Value}

theorem growsDefine (s : Observed) (frame : FrameId) (name : String) (value : Value) :
    Grows s (s.define frame name value) := by
  constructor
  · rfl
  · intro id old found
    have now := Frames.frameDefine s.frames frame id name value
    by_cases same : id = frame
    · subst same
      rw [if_pos rfl, found] at now
      have bound : ∀ other, old.bindings.contains other = true →
          (old.bindings.insert name value).contains other = true := by
        intro other before
        rw [Table.containsInsert, before, Bool.or_true]
      exact ⟨rfl, _, now, rfl, bound⟩
    · rw [if_neg same, found] at now
      exact ⟨rfl, old, now, rfl, fun _ before => before⟩

theorem containsDefined {old : Frame} (found : s.frames.frame? frame = some old) :
    (s.define frame name value).frames.contains frame name = true :=
  (Frames.definedContains found name name value).trans (by rw [beq_self_eq_true, Bool.true_or])

theorem framedDefine (framed : Framed g.programs s)
    (known : ∀ site, s.shadow.sites frame = some site →
      name ∈ siteNames g.programs site ∨ s.frames.contains frame name = true) :
    Framed g.programs (s.define frame name value) := by
  constructor
  · obtain ⟨root, found, top⟩ := framed.root
    obtain ⟨_, root', found', same, _⟩ := (growsDefine s frame name value).frames _ root found
    exact ⟨root', found', same.trans top⟩
  · exact framed.rootSite
  · intro id site other made bound
    obtain before | ⟨rfl, rfl⟩ := Frames.containsDefine bound
    · exact framed.names id site other made before
    · obtain member | before := known site made
      · exact member
      · exact framed.names id site other made before

theorem Agrees.define (agrees : g.Agrees s)
    (known : ∀ site, s.shadow.sites frame = some site →
      name ∈ siteNames g.programs site ∨ s.frames.contains frame name = true) :
    g.Agrees (s.define frame name value) := by
  apply agrees.extend (growsDefine s frame name value) (framedDefine agrees.framed known)
  · exact fun id f found => .inl ⟨found, rfl⟩
  · exact fun id c found => .inl ⟨found, rfl, rfl⟩
  · rfl

theorem laterDefine (s : Observed) (frame : FrameId) (name : String) (value : Value) :
    Later s (s.define frame name value) :=
  ⟨growsDefine s frame name value, rfl⟩

theorem chainDefine {scopes : List Scope} {sites : List Site} (chain : FrameChain s scopes sites frame) (name : String)
    (value : Value) : FrameChain (s.define frame name value) (introduce [name] scopes) sites frame := by
  have grown := chain.grow (growsDefine s frame name value)
  cases chain with
  | globals => exact grown
  | inner made link bound outer =>
    obtain ⟨old, found, _⟩ := Frames.parentFrame link
    cases grown with
    | inner made link bound outer =>
      refine .inner made link ?_ outer
      intro other complete
      rw [Scope.introduce, List.foldl_cons, List.foldl_nil, Table.findInsert] at complete
      split at complete
      · rename_i same
        rw [same]
        exact .inl (containsDefined found)
      · exact bound other complete

end Define

theorem holderBound {m : Machine} {name : Ident} {depth : Depth} {frame : FrameId}
    (found : Run.holder? name depth m = .ok (some frame) m) : m.heap.frames.contains frame name.name = true := by
  cases depth with
  | none => exact (Option.filter_eq_some_iff.mp (EStateM.Result.ok.inj found).1).2
  | some d => exact (Option.filter_eq_some_iff.mp (EStateM.Result.ok.inj found).1).2

section AddFrame
variable {s : Observed}

theorem growsAddFrame (s : Observed) (parent : FrameId) (site : Option Site) : Grows s (s.addFrame parent site) := by
  constructor
  · rfl
  · intro id frame found
    have old : id ≠ s.frames.nextId := by
      intro same
      rw [same, Frames.frameFresh] at found
      cases found
    have now := Frames.frameAdd s.frames ⟨some parent, .empty⟩ id
    rw [if_neg old, found] at now
    exact ⟨if_neg old, frame, now, rfl, fun _ bound => bound⟩

theorem addedFrame (s : Observed) (parent : FrameId) (site : Option Site) :
    (s.addFrame parent site).frames.frame? s.frames.nextId = some ⟨some parent, .empty⟩ :=
  (Frames.frameAdd s.frames _ _).trans (if_pos rfl)

theorem addedSite (s : Observed) (parent : FrameId) (site : Option Site) :
    (s.addFrame parent site).shadow.sites s.frames.nextId = site :=
  if_pos rfl

theorem framedAddFrame {programs : List Program} (framed : Framed programs s) (parent : FrameId)
    (site : Option Site) : Framed programs (s.addFrame parent site) := by
  obtain ⟨root, found, top⟩ := framed.root
  obtain ⟨kept, root', found', same, _⟩ := (growsAddFrame s parent site).frames _ root found
  constructor
  · exact ⟨root', found', same.trans top⟩
  · exact kept.trans framed.rootSite
  · intro id made name here bound
    by_cases new : id = s.frames.nextId
    · subst new
      rw [Frames.frameContains (addedFrame s parent site)] at bound
      cases bound
    · have same : (s.addFrame parent site).frames.contains id name = s.frames.contains id name := by
        have now := Frames.frameAdd s.frames ⟨some parent, .empty⟩ id
        rw [if_neg new] at now
        simp only [Frames.contains, Frames.get?]
        rw [← now]
        rfl
      have made' : s.shadow.sites id = some made := (if_neg new).symm.trans here
      exact framed.names id made name made' (same.symm.trans bound)

theorem Agrees.addFrame (agrees : g.Agrees s) (parent : FrameId) (site : Option Site) :
    g.Agrees (s.addFrame parent site) := by
  apply agrees.extend (growsAddFrame s parent site) (framedAddFrame agrees.framed parent site)
  · exact fun id f found => .inl ⟨found, rfl⟩
  · exact fun id c found => .inl ⟨found, rfl, rfl⟩
  · rfl

theorem laterAddFrame (s : Observed) (parent : FrameId) (site : Option Site) : Later s (s.addFrame parent site) :=
  ⟨growsAddFrame s parent site, rfl⟩

theorem chainAddFrame {scopes : List Scope} {sites : List Site} {parent : FrameId}
    (chain : FrameChain s scopes sites parent) (site : Site) :
    FrameChain (s.addFrame parent (some site)) (.empty :: scopes) (site :: sites) s.frames.nextId := by
  have link : (s.addFrame parent (some site)).frames.parent? s.frames.nextId = some parent := by
    simp [Frames.parent?, addedFrame s parent (some site)]
  refine .inner (addedSite s parent (some site)) link ?_ (chain.grow (growsAddFrame s parent (some site)))
  intro name complete
  cases complete

end AddFrame

theorem growsAddFunction (s : Observed) (c : Callable) (origin : Option Address) :
    Grows s (s.addFunction c origin) :=
  ⟨rfl, (Grows.refl s).frames⟩

theorem callableAdded {s : Observed} {c : Callable} {origin : Option Address} {id : FunctionId} {c' : Callable}
    (found : (s.addFunction c origin).machine.heap.callable? id = some c') :
    (s.machine.heap.callable? id = some c' ∧ (s.addFunction c origin).shadow.functions id = s.shadow.functions id) ∨
    (c' = c ∧ (s.addFunction c origin).shadow.functions id = origin) := by
  obtain ⟨index⟩ := id
  change (s.machine.heap.callables.push c)[index]? = some c' at found
  rw [Array.getElem?_push] at found
  split at found
  · rename_i same
    subst same
    exact .inr ⟨(Option.some.inj found).symm, if_pos rfl⟩
  · rename_i other
    exact .inl ⟨found, if_neg fun same => other (FunctionId.mk.inj same)⟩

theorem classAdded {s : Observed} {c : Class} {methods classMethods : Table Address} {id : ClassId} {c' : Class}
    (found : (s.addClass c methods classMethods).machine.heap.class? id = some c') :
    (s.machine.heap.class? id = some c' ∧
      (s.addClass c methods classMethods).shadow.methods id = s.shadow.methods id ∧
      (s.addClass c methods classMethods).shadow.classMethods id = s.shadow.classMethods id) ∨
    (c' = c ∧ (s.addClass c methods classMethods).shadow.methods id = methods ∧
      (s.addClass c methods classMethods).shadow.classMethods id = classMethods) := by
  obtain ⟨index⟩ := id
  change (s.machine.heap.classes.push c)[index]? = some c' at found
  rw [Array.getElem?_push] at found
  split at found
  · rename_i same
    subst same
    exact .inr ⟨(Option.some.inj found).symm, if_pos rfl, if_pos rfl⟩
  · rename_i other
    have old : (⟨index⟩ : ClassId) ≠ ⟨s.machine.heap.classes.size⟩ := fun same => other (ClassId.mk.inj same)
    exact .inl ⟨found, if_neg old, if_neg old⟩

theorem Agrees.addFunction {s : Observed} {f : Function} {origin : Option Address} (agrees : g.Agrees s)
    (fits : g.OfFunction s origin f) : g.Agrees (s.addFunction (.function f) origin) := by
  have same := growsAddFunction s (.function f) origin
  apply agrees.extend same ⟨agrees.framed.root, agrees.framed.rootSite, agrees.framed.names⟩
  · intro id f' found
    obtain before | ⟨new, traced⟩ := callableAdded found
    · exact .inl before
    · cases new
      rw [traced]
      exact .inr (fits.grow same)
  · exact fun id c found => .inl ⟨found, rfl, rfl⟩
  · rfl

end Setting
end Treewalk
