import Treewalk.Proofs.Mirror.Nodes

/-! Calls. A function of the session is run in two new frames, one for its parameters and one for its body, on top of
what it closes over; binding a method to its receiver makes the frame of its class. -/
namespace Treewalk

open Walk

theorem introducedName {scope : Scope} {names : List String} {name : String} {complete : Bool}
    (h : (scope.introduce names).find? name = some complete) :
    (name ∈ names ∧ complete = true) ∨ scope.find? name = some complete := by
  rw [introduceFind] at h
  split at h
  · rename_i member
    exact .inl ⟨member, (Option.some.inj h).symm⟩
  · exact .inr h

theorem FrameChain.rescope {s : Observed} {scope scope' : Scope} {scopes : List Scope} {site : Site} {sites : List Site}
    {frame : FrameId} (chain : FrameChain s (scope :: scopes) (site :: sites) frame)
    (bound : ∀ name, scope'.find? name = some true → s.frames.contains frame name = true) :
    FrameChain s (scope' :: scopes) (site :: sites) frame := by
  cases chain with
  | inner made link _ outer => exact .inner made link (fun name complete => .inl (bound name complete)) outer

namespace Setting
variable {g : Setting} {s : Observed}

def CalleeAt (g : Setting) (s : Observed) (origin : Option Address) : Callee → Prop
  | .callable (.function f) => g.OfFunction s origin f
  | _ => True

theorem functionItems {s s' : Observed} {origin : Option Address} {f : Function} (fits : g.OfFunction s origin f)
    (later : Later (s.addFrame f.closure (siteOf origin .parameters)) s')
    (bound : ∀ p ∈ f.decl.params, s'.frames.contains s.frames.nextId p.name = true) :
    g.ItemsAt ((s'.addFrame s.frames.nextId (siteOf origin .body)).within s'.frames.nextId) origin 0 f.decl.body := by
  cases origin with
  | none => exact Outside.addFrame fits s' s.frames.nextId
  | some address =>
    obtain ⟨place, kind, decl, located, same, chain⟩ := fits
    obtain ⟨name, params, body, line⟩ := decl
    rw [same] at bound ⊢
    have opened := (chainAddFrame chain ⟨address, .parameters⟩).grow later.grows
    have scopes : (place.ofFunction address kind params).context.scopes =
        .empty :: introduce (params.map Ident.name) (.empty :: place.context.scopes) :=
      congrArg (List.cons Table.empty) (movesDeclareAll params _).scopes
    have parameters : FrameChain s' (introduce (params.map Ident.name) (.empty :: place.context.scopes))
        (⟨address, .parameters⟩ :: place.sites) s.frames.nextId := by
      apply opened.rescope
      intro name complete
      obtain ⟨member, _⟩ | outside := introducedName complete
      · obtain ⟨p, param, rfl⟩ := List.mem_map.mp member
        exact bound p param
      · cases outside
    refine ⟨place.ofFunction address kind params, body, rfl, ?_, ?_⟩
    · rw [scopes]
      exact (chainAddFrame parameters ⟨address, .body⟩).grow ⟨rfl, (Grows.refl _).frames⟩
    · intro i place' part found
      rw [Nat.zero_add]
      exact .part located found

theorem parametersKnown {origin : Option Address} {f : Function} (fits : g.OfFunction s origin f) :
    ∀ site, siteOf origin .parameters = some site → ∀ p ∈ f.decl.params, p.name ∈ siteNames g.programs site := by
  intro site made p member
  cases origin with
  | none => cases made
  | some address =>
    cases made
    obtain ⟨place, kind, decl, located, same, _⟩ := fits
    obtain ⟨name, params, body, line⟩ := decl
    rw [same] at member
    simp only [siteNames, located.locate]
    exact List.mem_map_of_mem member

theorem boundMethod {origin : Option Address} {f : Function} (agrees : g.Agrees s) (fits : g.OfMethod s origin f)
    (receiver : InstanceId) : g.Agrees (s.bindThis f origin receiver) ∧
      g.OfFunction (s.bindThis f origin receiver) origin { f with closure := s.frames.nextId } := by
  have known : ∀ site, (s.addFrame f.closure (siteOf (origin.map List.tail) .receiver)).shadow.sites
      s.frames.nextId = some site → "this" ∈ siteNames g.programs site := by
    rw [addedSite]
    intro site made
    cases origin with
    | none => cases made
    | some address =>
      cases made
      exact List.mem_singleton_self "this"
  refine ⟨(agrees.addFrame _ _).define fun site made => .inl (known site made), ?_⟩
  cases origin with
  | none => exact fits
  | some address =>
    obtain ⟨index, outer, place, kind, decl, scopes, sites, rfl, located, same, inner, site, chain⟩ := fits
    refine ⟨place, kind, decl, located, same, ?_⟩
    rw [inner, site]
    exact chainDefine (chainAddFrame chain ⟨outer, .receiver⟩) "this" (.instanceObject receiver)

theorem originFound {h : Heap} {table : Class → Table Function} {origins : ClassId → Table Address}
    {fits : Option Address → Function → Prop} {name : String}
    (all : ∀ id c f, h.class? id = some c → (table c).find? name = some f → fits ((origins id).find? name) f)
    {more : Nat} {id : ClassId} {f : Function} (found : h.findAlong table name more id = some f) :
    fits (h.originAlong table origins name more id) f := by
  obtain ⟨holder, c, _, here, held, same⟩ := h.foundAlong origins found
  rw [same]
  exact all holder c f here held

theorem methodFound {id : ClassId} {name : String} {f : Function} (agrees : g.Agrees s)
    (found : s.machine.heap.findMethod? id name = some f) : g.OfMethod s (s.methodOrigin id name) f :=
  originFound (fun id c f here own => (agrees.classes id c here).methods name f own) found

theorem classMethodFound {id : ClassId} {name : String} {f : Function} (agrees : g.Agrees s)
    (found : s.machine.heap.findClassMethod? id name = some f) : g.OfFunction s (s.classMethodOrigin id name) f :=
  originFound (fun id c f here own => (agrees.classes id c here).classMethods name f own) found

end Setting
end Treewalk
