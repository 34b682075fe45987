import Mathlib.Data.List.Forall2
import Treewalk.Proofs.Places.Located

/-! What a step from a phrase to a part of it does to the scopes. A part stands in the scopes of the whole, to which
names may have been added, or in one or two scopes more. -/
namespace Treewalk

open Walk

def Phrase.surroundedBy (place : Place) : Phrase → FunctionContext
  | .function kind _ => kind
  | _ => place.context.function

inductive Entered (address : Address) (place : Place) : Phrase → Step → Place → Phrase → Prop where
  | same {phrase step place' part names} (declared : ∀ name ∈ names, name ∈ phrase.declares)
      (sites : place'.sites = place.sites)
      (scopes : place'.context.scopes = introduce names place.context.scopes)
      (direct : (∃ index, step = .item index) ∨ step = .superclass)
      (around : part.surroundedBy place' = phrase.surroundedBy place) :
      Entered address place phrase step place' part
  | function {phrase place' part names} (declared : ∀ name ∈ names, name ∈ phrase.declares)
      (sites : place'.sites = place.sites)
      (scopes : place'.context.scopes = introduce names place.context.scopes) :
      Entered address place phrase .function place' part
  | initializer {name initializer} :
      Entered address place (.stmt (.varDecl name (some initializer))) .initializer (place.after (declare name))
        (.expr initializer)
  | block {body index place' part names} (declared : ∀ name ∈ names, name ∈ declaredNames body)
      (sites : place'.sites = ⟨address, .block⟩ :: place.sites)
      (scopes : place'.context.scopes = Scope.introduce .empty names :: place.context.scopes)
      (around : part.surroundedBy place' = place.context.function) :
      Entered address place (.stmt (.block body)) (.item index) place' part
  | body {kind decl index place' part names} (declared : ∀ name ∈ names, name ∈ declaredNames decl.body)
      (sites : place'.sites = ⟨address, .body⟩ :: ⟨address, .parameters⟩ :: place.sites)
      (scopes : place'.context.scopes = Scope.introduce .empty names ::
        Scope.introduce .empty (decl.params.map Ident.name) :: place.context.scopes)
      (around : part.surroundedBy place' = kind) :
      Entered address place (.function kind decl) (.item index) place' part
  | method {decl index place' part} (sites : place'.sites = ⟨address, .receiver⟩ :: place.sites)
      (scopes : place'.context.scopes = .ofThis :: introduce [decl.name.name] place.context.scopes) :
      Entered address place (.stmt (.classDecl decl)) (.method index) place' part
  | classMethod {decl index place' part} (sites : place'.sites = ⟨address, .classSide⟩ :: place.sites)
      (scopes : place'.context.scopes = .ofThis :: introduce [decl.name.name] place.context.scopes)
      (around : part.surroundedBy place' = .classMethod) :
      Entered address place (.stmt (.classDecl decl)) (.classMethod index) place' part

theorem namedScopes (place : Place) (name : Ident) :
    (place.named name).context.scopes = introduce [name.name] place.context.scopes :=
  (movesDeclaredAlone name place.context).scopes

theorem classScopes (place : Place) (address : Address) (role : Role) (decl : ClassDecl) :
    (place.ofClass address role decl).context.scopes = .ofThis :: introduce [decl.name.name] place.context.scopes := by
  have named := namedScopes place.inClass decl.name
  have kept := (ClassDecl.resolveSuperclassSteady decl.name decl.superclass
    (place.inClass.named decl.name).context).scopes
  rw [introduceNone, named] at kept
  exact congrArg (List.cons Scope.ofThis) kept

theorem classSideScopes (place : Place) (address : Address) (decl : ClassDecl) :
    ((place.ofClass address .classSide decl).after (FunctionDecl.resolveMethods decl.methods)).context.scopes =
      .ofThis :: introduce [decl.name.name] place.context.scopes := by
  have kept := (FunctionDecl.resolveMethodsSteady decl.methods (place.ofClass address .classSide decl).context).scopes
  rw [introduceNone, classScopes] at kept
  exact kept

theorem memberPlace {kind : FunctionDecl → FunctionContext} {decls : List FunctionDecl} {place place' : Place}
    {index : Nat} {part : Phrase}
    (found : (place.thread (decls.map fun f => .function (kind f) f))[index]? = some (place', part)) :
    place'.sites = place.sites ∧ place'.context.scopes = place.context.scopes := by
  obtain ⟨_, sites, moved⟩ := Place.threadFound found
  have nothing : ((decls.map fun f => Phrase.function (kind f) f).take index).flatMap Phrase.declares = [] := by
    rw [List.flatMap_eq_nil_iff]
    intro part member
    obtain ⟨f, _, rfl⟩ := List.mem_map.mp (List.mem_of_mem_take member)
    rfl
  have scopes := moved.scopes
  rw [nothing, introduceNone] at scopes
  exact ⟨sites, scopes⟩

section
variable {address : Address} {place place' : Place} {phrase part : Phrase}

theorem itemPlain (member : part ∈ phrase.items) : (∃ s, part = .stmt s) ∨ ∃ e, part = .expr e := by
  cases part with
  | stmt s => exact .inl ⟨s, rfl⟩
  | expr e => exact .inr ⟨e, rfl⟩
  | _ =>
    cases phrase with
    | stmt s =>
      cases s with
      | ifElse condition thenBranch elseBranch => cases elseBranch <;> simp [Phrase.items] at member
      | returnStmt keyword value => cases value <;> simp [Phrase.items] at member
      | _ => simp [Phrase.items] at member
    | _ => simp [Phrase.items] at member

theorem itemSurrounded (member : part ∈ phrase.items) (place : Place) :
    part.surroundedBy place = place.context.function := by
  obtain ⟨s, rfl⟩ | ⟨e, rfl⟩ := itemPlain member <;> rfl

theorem itemEntered {index : Nat} (inside : phrase.part? address place (.item index) = some (place', part)) :
    Entered address place phrase (.item index) place' part := by
  obtain ⟨here, sites, moved⟩ := Place.threadFound inside
  have around := itemSurrounded (List.mem_of_getElem? here) place'
  rw [moved.function] at around
  have scopes := moved.scopes
  have names : ∀ all : List String, (∀ part ∈ phrase.items, ∀ name ∈ part.declares, name ∈ all) →
      ∀ name ∈ (phrase.items.take index).flatMap Phrase.declares, name ∈ all := by
    intro all each name member
    obtain ⟨part, there, declared⟩ := List.mem_flatMap.mp member
    exact each part (List.mem_of_mem_take there) name declared
  cases phrase with
  | program body =>
    exact .same (names _ fun part there => statementNames there) sites scopes (.inl ⟨index, rfl⟩) around
  | expr e =>
    refine .same (names _ ?_) sites scopes (.inl ⟨index, rfl⟩) around
    intro part there
    obtain ⟨e, _, rfl⟩ := List.mem_map.mp there
    exact nofun
  | function kind decl =>
    have parameters := (movesDeclareAll decl.params
      ((place.inFunction kind).enter ⟨address, .parameters⟩ .empty).context)
    refine .body (names _ fun part there => statementNames there) sites ?_ (around.trans parameters.function)
    rw [scopes]
    exact congrArg (List.cons _) parameters.scopes
  | stmt s =>
    by_cases isBlock : ∃ body, s = .block body
    · obtain ⟨body, rfl⟩ := isBlock
      exact .block (names _ fun part there => statementNames there) sites scopes around
    · have plain : (Phrase.stmt s).Plain := fun body same => isBlock ⟨body, same⟩
      obtain ⟨sites', scopes', function⟩ := Phrase.plainInside plain address place
      rw [scopes'] at scopes
      exact .same (names _ fun part there => branchNames plain there) (sites.trans sites') scopes
        (.inl ⟨index, rfl⟩) (around.trans function)

theorem partEntered {step : Step} (inside : phrase.part? address place step = some (place', part)) :
    Entered address place phrase step place' part := by
  cases partInside inside with
  | item found => exact itemEntered found
  | initializer => exact .initializer
  | declared => exact .function (fun _ member => member) rfl (namedScopes place _)
  | lambda =>
    refine .function ?_ rfl (introduceNone _).symm
    exact nofun
  | @superclass name superclass =>
    have checked := steadyCheckSuperclass name superclass (place.inClass.named name).context
    have named := movesDeclaredAlone name place.inClass.context
    refine .same (fun _ member => member) rfl ?_ (.inr rfl) (checked.function.trans named.function)
    exact checked.scopes.trans ((introduceNone _).trans named.scopes)
  | method _ found =>
    obtain ⟨sites, scopes⟩ := memberPlace found
    exact .method sites (scopes.trans (classScopes place address .receiver _))
  | classMethod _ found =>
    obtain ⟨sites, scopes⟩ := memberPlace found
    exact .classMethod sites (scopes.trans (classSideScopes place address _)) rfl

end

def Role.ofClass : Role → Bool
  | .receiver => true
  | .classSide => true
  | _ => false

def InOwnInitializer (programs : List Program) (address inner : Address) (site : Site) (name : String) : Prop :=
  ∃ outer place ident initializer, address = inner ++ .initializer :: outer ∧
    locate programs outer = some (place, .stmt (.varDecl ident (some initializer))) ∧
    ident.name = name ∧ place.sites.head? = some site

/- What a scope may hold when the walk is at an address: names that its site declares, incomplete only while the
walk is in their own initializers. -/
structure Fits (programs : List Program) (address : Address) (site : Site) (scope : Scope) : Prop where
  declared : ∀ name complete, scope.find? name = some complete →
    name ∈ siteNames programs site ∨ (site.role = .classSide ∧ name = "this")
  pending : ∀ name, scope.find? name = some false → ∃ inner, InOwnInitializer programs address inner site name
  receiver : site.role.ofClass = true → scope.contains "this" = true

namespace Fits
variable {programs : List Program} {address : Address} {site : Site} {scope : Scope}

theorem step (fits : Fits programs address site scope) (step : Step) : Fits programs (step :: address) site scope := by
  refine ⟨fits.declared, ?_, fits.receiver⟩
  intro name incomplete
  obtain ⟨inner, outer, place, ident, initializer, rfl, others⟩ := fits.pending name incomplete
  exact ⟨step :: inner, outer, place, ident, initializer, rfl, others⟩

theorem insert (fits : Fits programs address site scope) {name : String} {complete : Bool}
    (declared : name ∈ siteNames programs site)
    (pending : complete = false → ∃ inner, InOwnInitializer programs address inner site name) :
    Fits programs address site (scope.insert name complete) := by
  constructor
  · intro other flag found
    rw [Table.findInsert] at found
    split at found
    · rename_i same
      rw [same]
      exact .inl declared
    · exact fits.declared other flag found
  · intro other found
    rw [Table.findInsert] at found
    split at found
    · rename_i same
      rw [same]
      exact pending (Option.some.inj found)
    · exact fits.pending other found
  · intro member
    rw [Table.containsInsert, fits.receiver member, Bool.or_true]

theorem introduce (fits : Fits programs address site scope) {names : List String}
    (declared : ∀ name ∈ names, name ∈ siteNames programs site) :
    Fits programs address site (scope.introduce names) := by
  induction names generalizing scope with
  | nil => exact fits
  | cons name rest ih =>
    obtain ⟨first, others⟩ := List.forall_mem_cons.mp declared
    exact ih (fits.insert first nofun) others

theorem empty (plain : site.role.ofClass = false) : Fits programs address site .empty := by
  refine ⟨nofun, nofun, ?_⟩
  intro member
  exact absurd member (by simp [plain])

theorem ofThis (opener : Address) {role : Role} (member : role = .receiver ∨ role = .classSide) :
    Fits programs address ⟨opener, role⟩ .ofThis := by
  constructor
  · intro name complete found
    rw [Scope.ofThis, Table.findInsert] at found
    split at found
    · rename_i same
      obtain rfl | rfl := member
      · exact .inl (List.mem_singleton.mpr same)
      · exact .inr ⟨rfl, same⟩
    · cases found
  · intro name found
    rw [Scope.ofThis, Table.findInsert] at found
    split at found <;> cases found
  · intro _
    rfl

end Fits

section
variable {programs : List Program} {address : Address} {sites : List Site} {scopes : List Scope}

theorem fitsIntroduce {names : List String} (all : List.Forall₂ (Fits programs address) sites scopes)
    (declared : ∀ site, sites.head? = some site → ∀ name ∈ names, name ∈ siteNames programs site) :
    List.Forall₂ (Fits programs address) sites (introduce names scopes) := by
  cases all with
  | nil => exact .nil
  | cons first rest => exact .cons (first.introduce (declared _ rfl)) rest

theorem fitsDeclare {name : Ident} {c : ScopeContext} (all : List.Forall₂ (Fits programs address) sites c.scopes)
    (declared : ∀ site, sites.head? = some site → name.name ∈ siteNames programs site ∧
      ∃ inner, InOwnInitializer programs address inner site name.name) :
    List.Forall₂ (Fits programs address) sites ((declare name).after c).scopes := by
  rw [declareAfter]
  cases h : c.scopes with
  | nil => exact all
  | cons scope outer =>
    rw [h] at all
    dsimp only
    split
    · exact all
    · cases all with
      | cons first rest =>
        obtain ⟨known, pending⟩ := declared _ rfl
        exact .cons (first.insert known fun _ => pending) rest

theorem fitsAt {index : Nat} {site : Site} {scope : Scope} (all : List.Forall₂ (Fits programs address) sites scopes)
    (siteThere : sites[index]? = some site) (scopeThere : scopes[index]? = some scope) :
    Fits programs address site scope := by
  obtain ⟨inSites, rfl⟩ := List.getElem?_eq_some_iff.mp siteThere
  obtain ⟨inScopes, rfl⟩ := List.getElem?_eq_some_iff.mp scopeThere
  exact all.get inSites inScopes

theorem locatedFits {place : Place} {phrase : Phrase} (located : Located programs address place phrase) :
    List.Forall₂ (Fits programs address) place.sites place.context.scopes := by
  induction located with
  | program here => exact .nil
  | @part address place phrase step place' part outer inside ih =>
    have before : List.Forall₂ (Fits programs (step :: address)) place.sites place.context.scopes :=
      ih.imp fun _ _ fits => fits.step step
    have known : ∀ site, place.sites.head? = some site → ∀ name ∈ phrase.declares, name ∈ siteNames programs site :=
      fun site innermost => locatedNames outer innermost
    cases partEntered inside with
    | same declared sites scopes direct around =>
      rw [sites, scopes]
      exact fitsIntroduce before fun site innermost name member => known site innermost name (declared name member)
    | function declared sites scopes =>
      rw [sites, scopes]
      exact fitsIntroduce before fun site innermost name member => known site innermost name (declared name member)
    | @initializer name initializer =>
      refine fitsDeclare before fun site innermost => ⟨known site innermost _ List.mem_cons_self, [], ?_⟩
      exact ⟨address, place, name, initializer, rfl, outer.locate, rfl, innermost⟩
    | block declared sites scopes around =>
      rw [sites, scopes]
      refine .cons ((Fits.empty rfl).introduce ?_) before
      simpa only [siteNames, outer.locate] using declared
    | body declared sites scopes around =>
      rw [sites, scopes]
      refine .cons ((Fits.empty rfl).introduce ?_) (.cons ((Fits.empty rfl).introduce ?_) before)
      · simpa only [siteNames, outer.locate] using declared
      · simp only [siteNames, outer.locate]
        exact fun _ member => member
    | method sites scopes =>
      rw [sites, scopes]
      refine .cons (Fits.ofThis address (.inl rfl)) (fitsIntroduce before ?_)
      exact known
    | classMethod sites scopes around =>
      rw [sites, scopes]
      refine .cons (Fits.ofThis address (.inr rfl)) (fitsIntroduce before ?_)
      exact known

end

def Step.ofMember : Step → Bool
  | .method _ => true
  | .classMethod _ => true
  | _ => false

def InClassMethod (address inner : Address) : Prop :=
  ∃ index outer, address = inner ++ .classMethod index :: outer ∧ ∀ step ∈ inner, step.ofMember = false

theorem InClassMethod.step {address inner : Address} (inside : InClassMethod address inner) {step : Step}
    (plain : step.ofMember = false) : InClassMethod (step :: address) (step :: inner) := by
  obtain ⟨index, outer, rfl, others⟩ := inside
  exact ⟨index, outer, rfl, List.forall_mem_cons.mpr ⟨plain, others⟩⟩

/- Where the nearest class shows its own side, a method of that class is around, and not directly around only if
there is a function in between. -/
theorem locatedClassSide {programs : List Program} {address opener : Address} {place : Place} {phrase : Phrase}
    (located : Located programs address place phrase)
    (nearest : place.sites.find? (·.role.ofClass) = some ⟨opener, .classSide⟩) :
    ∃ inner, InClassMethod address inner ∧ (.function ∈ inner ∨ phrase.surroundedBy place = .classMethod) := by
  induction located with
  | program here => cases nearest
  | @part address place phrase step place' part outer inside ih =>
    cases partEntered inside with
    | same declared sites scopes direct around =>
      rw [sites] at nearest
      obtain ⟨inner, within, kind⟩ := ih nearest
      have plain : step.ofMember = false := by
        obtain ⟨index, rfl⟩ | rfl := direct <;> rfl
      rw [around]
      exact ⟨step :: inner, within.step plain, kind.imp_left (List.mem_cons_of_mem step)⟩
    | function declared sites scopes =>
      rw [sites] at nearest
      obtain ⟨inner, within, _⟩ := ih nearest
      exact ⟨.function :: inner, within.step rfl, .inl List.mem_cons_self⟩
    | @initializer name initializer =>
      obtain ⟨inner, within, kind⟩ := ih nearest
      refine ⟨.initializer :: inner, within.step rfl, kind.imp (List.mem_cons_of_mem _) ?_⟩
      exact (declareKeeps name place.context).1.trans
    | block declared sites scopes around =>
      rw [sites] at nearest
      obtain ⟨inner, within, kind⟩ := ih nearest
      rw [around]
      exact ⟨_ :: inner, within.step rfl, kind.imp_left (List.mem_cons_of_mem _)⟩
    | body declared sites scopes around =>
      rw [sites] at nearest
      obtain ⟨inner, within, kind⟩ := ih nearest
      rw [around]
      exact ⟨_ :: inner, within.step rfl, kind.imp_left (List.mem_cons_of_mem _)⟩
    | method sites scopes =>
      rw [sites] at nearest
      cases nearest
    | @classMethod decl index _ _ sites scopes around =>
      exact ⟨[], ⟨index, address, rfl, nofun⟩, .inr around⟩

end Treewalk
