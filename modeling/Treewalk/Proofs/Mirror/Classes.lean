import Treewalk.Proofs.Mirror.Declarations

/-! Classes. A class and its name come together too; its methods close over the frame that gets the name, its own
methods over an empty frame inside that one. -/
namespace Treewalk

open Walk

theorem tabled {closure : FrameId} {isInitializer : FunctionDecl → Bool} {way : Nat → Address}
    {fits : Option Address → Function → Prop} (decls : List FunctionDecl) (index : Nat) (table : Table Function)
    (origins : Table Address) (before : ∀ name f, table.find? name = some f → fits (origins.find? name) f)
    (members : ∀ i decl, decls[i]? = some decl →
      fits (some (way (index + i))) ⟨decl, closure, isInitializer decl⟩) :
    ∀ name f, (decls.foldl (fun table decl => table.insert decl.label ⟨decl, closure, isInitializer decl⟩)
      table).find? name = some f → fits ((originTable way index decls origins).find? name) f := by
  induction decls generalizing index table origins with
  | nil => exact before
  | cons decl rest ih =>
    apply ih (index + 1)
    · intro name f found
      rw [Table.findInsert] at found ⊢
      split at found
      · rename_i same
        cases found
        rw [if_pos same]
        exact members 0 decl rfl
      · rename_i other
        rw [if_neg other]
        exact before name f found
    · intro i decl' found
      have next := members (i + 1) decl' found
      rwa [Nat.add_comm i 1, ← Nat.add_assoc] at next

namespace Setting
variable {g : Setting} {s : Observed} {way : Address} {place : Place} {decl : ClassDecl}

theorem methodLocated (located : Located g.programs way place (.stmt (.classDecl decl))) {index : Nat}
    {method : FunctionDecl} (here : (decl.resolve.result place.context).methods[index]? = some method) :
    ∃ place' f, Located g.programs (.method index :: way) place' (.function f.methodContext f) ∧
      method = (f.resolve f.methodContext).result place'.context ∧ place'.sites = ⟨way, .receiver⟩ :: place.sites ∧
      place'.context.scopes = .ofThis :: introduce [decl.name.name] place.context.scopes := by
  obtain ⟨name, superclass, methods, classMethods⟩ := decl
  have inside : ((Phrase.resolveMembers FunctionDecl.methodContext methods).result
      (place.ofClass way .receiver ⟨name, superclass, methods, classMethods⟩).context)[index]? = some method := by
    rw [← Phrase.methodsAreMembers]
    exact here
  obtain ⟨place', f, found, same⟩ := Phrase.memberFound inside
  obtain ⟨sites, scopes⟩ := memberPlace found
  exact ⟨place', f, .part located found, same.symm, sites, scopes.trans (classScopes place way .receiver _)⟩

theorem classMethodLocated (located : Located g.programs way place (.stmt (.classDecl decl))) {index : Nat}
    {method : FunctionDecl} (here : (decl.resolve.result place.context).classMethods[index]? = some method) :
    ∃ place' f, Located g.programs (.classMethod index :: way) place' (.function .classMethod f) ∧
      method = (f.resolve .classMethod).result place'.context ∧ place'.sites = ⟨way, .classSide⟩ :: place.sites ∧
      place'.context.scopes = .ofThis :: introduce [decl.name.name] place.context.scopes := by
  obtain ⟨name, superclass, methods, classMethods⟩ := decl
  have inside : ((Phrase.resolveMembers (fun _ => .classMethod) classMethods).result
      ((place.ofClass way .classSide ⟨name, superclass, methods, classMethods⟩).after
        (FunctionDecl.resolveMethods methods)).context)[index]? = some method := by
    rw [← Phrase.classMethodsAreMembers]
    exact here
  obtain ⟨place', f, found, same⟩ := Phrase.memberFound inside
  obtain ⟨sites, scopes⟩ := memberPlace found
  exact ⟨place', f, .part located found, same.symm, sites, scopes.trans (classSideScopes place way _)⟩

end Setting

namespace Setting
variable {g : Setting} {s : Observed} {address : Option Address} {decl : ClassDecl} {superclass : Option ClassId}

theorem growsWithClass (s : Observed) (address : Option Address) (decl : ClassDecl) (superclass : Option ClassId) :
    Grows s (s.withClass address decl superclass) :=
  (growsAddFrame s s.machine.environment (siteOf address .classSide)).trans ⟨rfl, (Grows.refl _).frames⟩

theorem framedWithClass (framed : Framed g.programs s) (address : Option Address) (decl : ClassDecl)
    (superclass : Option ClassId) : Framed g.programs (s.withClass address decl superclass) := by
  have opened := framedAddFrame framed s.machine.environment (siteOf address .classSide)
  exact ⟨opened.root, opened.rootSite, opened.names⟩

theorem OfClass.outside {s' : Observed} (older : g.older) (decl : ClassDecl) (c : Class) :
    g.OfClass s' (originsAt none .method decl.methods) (originsAt none .classMethod decl.classMethods) c :=
  ⟨fun _ _ _ => older, fun _ _ _ => older⟩

theorem Agrees.addClass {value : Value} (agrees : g.Agrees s)
    (known : ∀ site, (s.withClass address decl superclass).shadow.sites s.machine.environment = some site →
      decl.name.name ∈ siteNames g.programs site)
    (fits : g.OfClass ((s.withClass address decl superclass).define s.machine.environment decl.name.name value)
      (originsAt address .method decl.methods) (originsAt address .classMethod decl.classMethods)
      (s.classOf decl superclass)) :
    g.Agrees ((s.withClass address decl superclass).define s.machine.environment decl.name.name value) := by
  have added := growsWithClass s address decl superclass
  have framed := framedWithClass agrees.framed address decl superclass
  apply agrees.extend (added.trans (growsDefine _ s.machine.environment decl.name.name value))
    (framedDefine framed fun site made => .inl (known site made))
  · exact fun id f found => .inl ⟨found, rfl⟩
  · intro id c found
    obtain before | ⟨new, methods, classMethods⟩ := classAdded (s := s.addFrame _ _) found
    · exact .inl before
    · right
      subst new
      change g.OfClass _ ((s.withClass address decl superclass).shadow.methods id)
        ((s.withClass address decl superclass).shadow.classMethods id) _
      rw [Observed.withClass, methods, classMethods]
      exact fits
  · rfl

/- The frame of the class side stays empty, though its scope has `this`. -/
theorem chainClassSide {scopes : List Scope} {sites : List Site} {way : Address} {s' : Observed}
    (grows : Grows (s.addFrame s.machine.environment (some ⟨way, .classSide⟩)) s')
    (outer : FrameChain s' scopes sites s.machine.environment) :
    FrameChain s' (.ofThis :: scopes) (⟨way, .classSide⟩ :: sites) s.frames.nextId := by
  have there := addedFrame s s.machine.environment (some ⟨way, .classSide⟩)
  have made := (grows.frames _ _ there).1.trans (addedSite s s.machine.environment (some ⟨way, .classSide⟩))
  have link : (s.addFrame s.machine.environment (some ⟨way, .classSide⟩)).frames.parent? s.frames.nextId =
      some s.machine.environment := by
    simp [Frames.parent?, there]
  refine .inner made (grows.parent link) ?_ outer
  intro name complete
  rw [Scope.ofThis, Table.findInsert] at complete
  split at complete
  · rename_i same
    exact .inr ⟨rfl, same⟩
  · cases complete

theorem classFits {way : Address} {place : Place} {source : ClassDecl} {s' : Observed}
    (located : Located g.programs way place (.stmt (.classDecl source)))
    (grows : Grows (s.addFrame s.machine.environment (some ⟨way, .classSide⟩)) s')
    (named : FrameChain s' (introduce [source.name.name] place.context.scopes) place.sites s.machine.environment) :
    g.OfClass s' (originsAt (some way) .method (source.resolve.result place.context).methods)
      (originsAt (some way) .classMethod (source.resolve.result place.context).classMethods)
      (s.classOf (source.resolve.result place.context) superclass) := by
  constructor
  · refine tabled _ 0 .empty .empty nofun ?_
    intro i decl here
    obtain ⟨place', f, located', same, sites, scopes⟩ := methodLocated located here
    rw [Nat.zero_add]
    exact ⟨i, way, place', _, f, _, _, rfl, located', same, scopes, sites, named⟩
  · refine tabled _ 0 .empty .empty nofun ?_
    intro i decl here
    obtain ⟨place', f, located', same, sites, scopes⟩ := classMethodLocated located here
    rw [Nat.zero_add]
    refine ⟨place', _, f, located', same, ?_⟩
    rw [sites, scopes]
    exact chainClassSide grows named

theorem declaredClass (agrees : g.Agrees s) (here : g.NodeAt s address (.stmt (.classDecl decl)))
    (superclass : Option ClassId) (value : Value) :
    g.Agrees ((s.withClass address decl superclass).define s.machine.environment decl.name.name value) ∧
    g.Passed ((s.withClass address decl superclass).define s.machine.environment decl.name.name value) address := by
  have added := growsWithClass s address decl superclass
  cases address with
  | none =>
    obtain ⟨older, site, frame, found⟩ := here
    refine ⟨agrees.addClass ?_ (.outside older decl _), nofun⟩
    rw [(added.frames _ frame found).1, site]
    exact nofun
  | some way =>
    obtain ⟨place, source, located, made, _, chain⟩ := here.source
    obtain ⟨source, rfl, rfl⟩ := made
    obtain ⟨name, up, methods, classMethods⟩ := source
    have named := chainDefine (chain.grow added) name.name value
    have known := declaredKnown (framedWithClass agrees.framed _ _ _) located (List.mem_singleton_self name.name)
      (chain.grow added)
    constructor
    · apply agrees.addClass known
      exact classFits located ⟨rfl, (growsDefine (s.withClass _ _ superclass) _ name.name value).frames⟩ named
    · exact passedAt located named

theorem superclassOther {name superclass : Ident} {c : ScopeContext}
    (clean : ((checkSuperclass name (.var superclass none)).after c).errors = []) : superclass.name ≠ name.name := by
  intro same
  have reported : (checkSuperclass name (.var superclass none)).after c =
      (report superclass .inheritsFromItself).after c := by
    simp only [checkSuperclass, same, beq_self_eq_true, if_true]
  rw [reported] at clean
  exact List.cons_ne_nil _ _ (List.append_eq_nil_iff.mp clean).2

theorem lookupsKept (scopes : List Scope) {name other : String} (differ : other ≠ name) :
    scopes.map (·.find? other) = (introduce [name] scopes).map (·.find? other) := by
  cases scopes with
  | nil => rfl
  | cons scope outer =>
    simp only [introduce, Scope.introduce, List.foldl_cons, List.foldl_nil, List.map_cons, Table.findInsert,
      if_neg differ]

theorem NodeAt.parent {e : Expr} (here : g.NodeAt s address (.stmt (.classDecl decl)))
    (up : decl.superclass = some e) : g.NodeAt s (within? address .superclass) (.expr e) := by
  cases address with
  | none => exact here
  | some way =>
    obtain ⟨place, source, located, made, proper, chain⟩ := here.source
    obtain ⟨source, rfl, rfl⟩ := made
    obtain ⟨name, superclass, methods, classMethods⟩ := source
    cases superclass with
    | none => exact nomatch up
    | some superclass =>
      cases up
      obtain ⟨ident, rfl, _⟩ := proper.1 superclass rfl
      have located' : Located g.programs (.superclass :: way) _ (.expr (.var ident none)) := .part located rfl
      have clean := locatedAccepted g.accepted located'
      have before := (Phrase.resolveMoves (.expr (.var ident none))
        ((place.inClass.named name).after (checkSuperclass name (.var ident none))).context).errors
      rw [clean] at before
      have differ := superclassOther (List.prefix_nil.mp before)
      have scopes := (steadyCheckSuperclass name (.var ident none) (place.inClass.named name).context).scopes
      rw [introduceNone, namedScopes] at scopes
      refine ⟨_, _, located', rfl, place.context.scopes, chain, .inr ⟨ident, _, rfl, ?_⟩⟩
      change _ = ((checkSuperclass name (.var ident none)).after (place.inClass.named name).context).scopes.map _
      rw [scopes]
      exact lookupsKept _ differ

end Setting
end Treewalk
