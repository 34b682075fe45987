import Treewalk.Proofs.Lexical

/-! The scopes of the walk are those of the reader. When the walk gets to a phrase, each open scope holds the names
that its site declares before the phrase, and no others but the `this` of a class. -/
namespace Treewalk

open Walk

section Declared
variable {programs : List Program} {address : Address} {phrase : Phrase} {site : Site} {name : String} {step : Step}

theorem phraseChild (here : phraseAt programs address = some phrase) (step : Step) :
    phraseAt programs (step :: address) = phrase.child? step := by
  cases address with
  | nil => cases here
  | cons next rest => rw [phraseStep, here, Option.bind_some]

theorem declaredBefore : DeclaredBefore programs site name ⟨address, 0⟩ ↔
    ∃ mark ident, Declares programs site mark ident ∧ ident.name = name ∧ Address.Before mark.address address := by
  constructor
  · intro declared
    obtain ⟨mark, ident, declares, same, before⟩ := declared
    cases before with
    | inl before => exact ⟨mark, ident, declares, same, before⟩
    | inr both => exact absurd both.2 (Nat.not_lt_zero _)
  · intro declared
    obtain ⟨mark, ident, declares, same, before⟩ := declared
    exact ⟨mark, ident, declares, same, .inl before⟩

theorem declaresAt (proper : ∀ p ∈ programs, Stmt.ProperAll p) {mark : Mark} {ident : Ident}
    (declares : Declares programs site mark ident) :
    (∃ index, mark = ⟨.item index :: site.opener, 0⟩ ∧ (site.role = .block ∨ site.role = .body)) ∨
    ∃ index, mark = ⟨site.opener, index⟩ ∧ site.role = .parameters := by
  cases declares with
  | statement here named innermost =>
    obtain ⟨index, rfl, role⟩ := declaredSite proper here named innermost
    exact .inl ⟨index, rfl, role⟩
  | parameter here named => exact .inr ⟨_, rfl, rfl⟩

theorem openerShorter (member : site ∈ enclosing programs address) : site.opener.length < address.length := by
  obtain ⟨inner, more, rfl⟩ := openerAround member
  have positive := List.length_pos_iff.mpr more
  rw [List.length_append]
  omega

theorem enclosingNodup (programs : List Program) (address : Address) : (enclosing programs address).Nodup := by
  induction address with
  | nil => exact List.nodup_nil
  | cons step address ih =>
    refine List.nodup_append.mpr ⟨?_, ih, ?_⟩
    · unfold opened
      split
      · unfold Phrase.opens
        split <;> simp
      · exact List.nodup_nil
    · intro inner here outer there same
      have shorter := openerShorter there
      rw [← same, openedHere here] at shorter
      exact Nat.lt_irrefl _ shorter

theorem outerDeclared (proper : ∀ p ∈ programs, Stmt.ProperAll p) (here : phraseAt programs address = some phrase)
    (member : site ∈ enclosing programs address) (step : Step) :
    DeclaredBefore programs site name ⟨step :: address, 0⟩ ↔ DeclaredBefore programs site name ⟨address, 0⟩ ∨
      (enclosing programs address).head? = some site ∧ phrase.declared?.map Ident.name = some name := by
  have shorter := openerShorter member
  rw [declaredBefore, declaredBefore]
  constructor
  · intro declared
    obtain ⟨mark, ident, declares, same, before⟩ := declared
    obtain atPhrase | before | ⟨inner, step', _, inPart⟩ := beforeStep.mp before
    · right
      cases declares with
      | statement here' named innermost =>
        cases atPhrase
        cases here.symm.trans here'
        exact ⟨innermost, by rw [named, Option.map_some, same]⟩
      | parameter here' named =>
        cases atPhrase
        exact absurd shorter (Nat.lt_irrefl _)
    · exact .inl ⟨mark, ident, declares, same, before⟩
    · -- what is inside the phrase is too far from the site to be declared there
      have lengths := congrArg List.length inPart
      rw [List.length_append, List.length_cons] at lengths
      obtain ⟨index, rfl, _⟩ | ⟨index, rfl, _⟩ := declaresAt proper declares
      · rw [List.length_cons] at lengths
        omega
      · dsimp only at lengths
        omega
  · intro either
    obtain ⟨mark, ident, declares, same, before⟩ | ⟨innermost, named⟩ := either
    · exact ⟨mark, ident, declares, same, beforeStep.mpr (.inr (.inl before))⟩
    · obtain ⟨ident, named, same⟩ := Option.map_eq_some_iff.mp named
      exact ⟨⟨address, 0⟩, ident, .statement here named innermost, same, beforeInside step address⟩

theorem takenItem {items : List α} {item : α} {count : Nat} :
    item ∈ items.take count ↔ ∃ i, i < count ∧ items[i]? = some item := by
  rw [List.mem_iff_getElem?]
  refine exists_congr fun i => ?_
  rw [List.getElem?_take]
  split
  · rename_i less
    simp only [less, true_and]
  · rename_i more
    simp only [more, false_and, reduceCtorEq]

theorem listedDeclared (proper : ∀ p ∈ programs, Stmt.ProperAll p) (here : phraseAt programs address = some phrase)
    {index : Nat} (innermost : (phrase.opens address (.item index)).head? = some site) :
    DeclaredBefore programs site name ⟨.item index :: address, 0⟩ ↔
      ∃ part ∈ phrase.items.take index, part.declared?.map Ident.name = some name := by
  have opener : site.opener = address := by
    cases phrase with
    | stmt s =>
      cases s with
      | block body =>
        cases innermost
        rfl
      | _ => cases innermost
    | function kind decl =>
      cases innermost
      rfl
    | _ => cases innermost
  have parts : ∀ i, phraseAt programs (.item i :: address) = phrase.items[i]? := fun i => phraseChild here (.item i)
  rw [declaredBefore]
  constructor
  · intro declared
    obtain ⟨mark, ident, declares, same, before⟩ := declared
    cases declares with
    | statement there named innermost' =>
      obtain ⟨i, rfl, _⟩ := declaredSite proper there named innermost'
      rw [opener] at before there
      rw [parts] at there
      exact ⟨_, takenItem.mpr ⟨i, beforeItem.mp before, there⟩, by rw [named, Option.map_some, same]⟩
    | parameter there named =>
      cases phrase with
      | stmt s => cases s <;> cases innermost
      | function kind decl => cases innermost
      | _ => cases innermost
  · intro declared
    obtain ⟨part, member, named⟩ := declared
    obtain ⟨ident, named, same⟩ := Option.map_eq_some_iff.mp named
    obtain ⟨i, less, found⟩ := takenItem.mp member
    rw [← parts] at found
    have innermost' : (enclosing programs (.item i :: address)).head? = some site := by
      simp only [enclosing, opened, here]
      rw [opensItem i index, List.head?_append, innermost, Option.some_or]
    exact ⟨_, ident, .statement found named innermost', same, beforeItem.mpr less⟩

end Declared

def Knows (programs : List Program) (address : Address) (site : Site) (scope : Scope) : Prop :=
  ∀ name, scope.contains name = true ↔
    (site.role.ofClass = true ∧ name = "this") ∨ DeclaredBefore programs site name ⟨address, 0⟩

inductive Gains (declared : Option Ident) : List Scope → List Scope → Prop where
  | global : Gains declared [] []
  | innermost {scope scope' outer} (gained : ∀ name, scope'.contains name = true ↔
      scope.contains name = true ∨ declared.map Ident.name = some name) :
      Gains declared (scope :: outer) (scope' :: outer)

theorem containsIntroduce (scope : Scope) (names : List String) (name : String) :
    (scope.introduce names).contains name = true ↔ scope.contains name = true ∨ name ∈ names := by
  rw [Table.contains, introduceFind]
  by_cases member : name ∈ names <;> simp [member, Table.contains]

theorem Gains.nothing (scopes : List Scope) : Gains none scopes scopes := by
  cases scopes with
  | nil => exact .global
  | cons scope outer => exact .innermost fun name => by simp

theorem Gains.introduced (name : Ident) (scopes : List Scope) :
    Gains (some name) scopes (introduce [name.name] scopes) := by
  cases scopes with
  | nil => exact .global
  | cons scope outer =>
    refine .innermost fun other => ?_
    rw [containsIntroduce, List.mem_singleton, Option.map_some, Option.some.injEq, eq_comm (a := other)]

theorem Gains.declared (name : Ident) (c : ScopeContext) :
    Gains (some name) c.scopes ((declare name).after c).scopes := by
  rw [declareAfter]
  cases h : c.scopes with
  | nil =>
    dsimp only
    rw [h]
    exact .global
  | cons scope outer =>
    dsimp only
    split
    · rename_i known
      refine .innermost fun other => (or_iff_left_of_imp ?_).symm
      intro same
      rwa [← Option.some.inj same]
    · refine .innermost fun other => ?_
      rw [Table.containsInsert, Bool.or_eq_true, beq_iff_eq, or_comm, Option.map_some, Option.some.injEq,
        eq_comm (a := other)]

section Exact
variable {programs : List Program} {address : Address} {place place' : Place} {phrase part : Phrase} {step : Step}

theorem knowsGains (proper : ∀ p ∈ programs, Stmt.ProperAll p) (here : phraseAt programs address = some phrase)
    (step : Step) {scopes scopes' : List Scope}
    (knows : List.Forall₂ (Knows programs address) (enclosing programs address) scopes)
    (gains : Gains phrase.declared? scopes scopes') :
    List.Forall₂ (Knows programs (step :: address)) (enclosing programs address) scopes' := by
  have moved : ∀ site ∈ enclosing programs address, ∀ name, DeclaredBefore programs site name ⟨step :: address, 0⟩ ↔ _ :=
    fun site member name => outerDeclared proper here member step
  have distinct := enclosingNodup programs address
  generalize enclosing programs address = all at knows moved distinct ⊢
  cases gains with
  | global =>
    cases knows
    exact .nil
  | innermost gained =>
    cases knows with
    | cons first rest =>
      rename_i site sites
      obtain ⟨apart, _⟩ := List.nodup_cons.mp distinct
      refine .cons ?_ ?_
      · intro name
        rw [gained, first name, moved site List.mem_cons_self name, or_assoc]
        simp
      · have others : List.Forall₂ (fun site scope => site ∈ sites ∧ Knows programs address site scope) sites _ :=
          (List.forall₂_and_left _ _).mpr ⟨fun _ member => member, rest⟩
        refine others.imp fun other scope both name => ?_
        rw [both.2 name, moved other (List.mem_cons_of_mem _ both.1) name]
        refine or_congr_right (or_iff_left ?_).symm
        intro innermost
        cases innermost.1
        exact apart both.1

theorem knowsThis (proper : ∀ p ∈ programs, Stmt.ProperAll p) (opener : Address) {role : Role}
    (ofClass : role.ofClass = true) : Knows programs address ⟨opener, role⟩ .ofThis := by
  intro name
  have nothing : ¬ DeclaredBefore programs ⟨opener, role⟩ name ⟨address, 0⟩ := by
    intro declared
    obtain ⟨_, _, declares, _⟩ := declared
    obtain ⟨_, _, same | same⟩ | ⟨_, _, same⟩ := declaresAt proper declares <;> cases same <;> cases ofClass
  rw [or_iff_left nothing, Scope.ofThis, Table.containsInsert, Bool.or_eq_true, beq_iff_eq]
  simp [Table.contains, ofClass]

theorem knowsParameters (proper : ∀ p ∈ programs, Stmt.ProperAll p) {kind : FunctionContext} {decl : FunctionDecl}
    (here : phraseAt programs address = some (.function kind decl)) (step : Step) :
    Knows programs (step :: address) ⟨address, .parameters⟩ (Scope.introduce .empty (decl.params.map Ident.name)) := by
  intro name
  rw [containsIntroduce, List.mem_map, declaredBefore]
  constructor
  · intro either
    obtain known | ⟨ident, member, same⟩ := either
    · cases known
    · obtain ⟨index, found⟩ := List.mem_iff_getElem?.mp member
      exact .inr ⟨_, ident, .parameter here found, same, beforeInside step address⟩
  · intro either
    obtain ⟨ofClass, _⟩ | ⟨mark, ident, declares, same, _⟩ := either
    · cases ofClass
    · cases declares with
      | statement there named innermost =>
        obtain ⟨_, _, role | role⟩ := declaredSite proper there named innermost <;> cases role
      | parameter there named =>
        cases here.symm.trans there
        exact .inr ⟨ident, List.mem_of_getElem? named, same⟩

theorem declaresExact {s : Stmt} (proper : s.Proper) (name : String) :
    name ∈ s.declares ↔ (Phrase.stmt s).declared?.map Ident.name = some name := by
  by_cases declaring : s.Declaring
  · cases s with
    | varDecl ident initializer => simp [Stmt.declares, Phrase.declared?, eq_comm]
    | funDecl decl =>
      obtain ⟨ident, params, body, line⟩ := decl
      cases ident <;> simp [Stmt.declares, Phrase.declared?, eq_comm]
    | classDecl decl => simp [Stmt.declares, Phrase.declared?, eq_comm]
    | _ => exact declaring.elim
  · rw [Stmt.undeclared proper declaring]
    rw [undeclaring declaring]
    exact iff_of_false List.not_mem_nil (Option.some_ne_none name).symm

theorem knowsListed (proper : ∀ p ∈ programs, Stmt.ProperAll p) (located : Located programs address place phrase)
    {body : List Stmt} (items : phrase.items = body.map .stmt) {index : Nat} {site : Site}
    (innermost : (phrase.opens address (.item index)).head? = some site) (plain : site.role.ofClass = false) :
    Knows programs (.item index :: address) site
      (Scope.introduce .empty ((phrase.items.take index).flatMap Phrase.declares)) := by
  intro name
  have statement : ∀ part ∈ phrase.items.take index,
      name ∈ part.declares ↔ part.declared?.map Ident.name = some name := by
    intro part member
    have inItems := List.mem_of_mem_take member
    have partProper := Phrase.itemsProper (locatedProper proper located) part inItems
    rw [items] at inItems
    obtain ⟨s, _, rfl⟩ := List.mem_map.mp inItems
    exact declaresExact partProper name
  rw [containsIntroduce, listedDeclared proper located.phraseAt innermost, List.mem_flatMap]
  have empty : (Table.empty : Scope).contains name = false := rfl
  simp only [empty, plain, Bool.false_eq_true, false_and, false_or]
  exact exists_congr fun part => and_congr_right (statement part)

structure Enters (programs : List Program) (address : Address) (place : Place) (phrase : Phrase) (step : Step)
    (place' : Place) (fresh kept : List Scope) : Prop where
  scopes : place'.context.scopes = fresh ++ kept
  gains : Gains phrase.declared? place.context.scopes kept
  knows : List.Forall₂ (Knows programs (step :: address)) (phrase.opens address step) fresh

theorem itemScopes (proper : ∀ p ∈ programs, Stmt.ProperAll p) (located : Located programs address place phrase)
    {index : Nat} (inside : phrase.part? address place (.item index) = some (place', part)) :
    ∃ fresh kept, Enters programs address place phrase (.item index) place' fresh kept := by
  obtain ⟨here, _, moved⟩ := Place.threadFound inside
  have scopes := moved.scopes
  cases phrase with
  | program body =>
    obtain ⟨_, _, rfl⟩ := programAlone located
    exact ⟨[], [], scopes, .global, .nil⟩
  | function kind decl =>
    have parameters := movesDeclareAll decl.params ((place.inFunction kind).enter ⟨address, .parameters⟩ .empty).context
    have all : ((Phrase.function kind decl).inside address place).context.scopes = .empty ::
        Scope.introduce .empty (decl.params.map Ident.name) :: place.context.scopes :=
      congrArg (List.cons _) parameters.scopes
    rw [all] at scopes
    refine ⟨[_, _], _, scopes, .nothing _, .cons ?_ (.cons ?_ .nil)⟩
    · exact knowsListed proper located rfl rfl rfl
    · exact knowsParameters proper located.phraseAt (.item index)
  | expr e =>
    rw [Phrase.items, expressionsUndeclared, introduceNone] at scopes
    exact ⟨[], _, scopes, .nothing _, .nil⟩
  | stmt s =>
    by_cases isBlock : ∃ body, s = .block body
    · obtain ⟨body, rfl⟩ := isBlock
      exact ⟨[_], _, scopes, .nothing _, .cons (knowsListed proper located rfl rfl rfl) .nil⟩
    · have noBlock : ∀ body, s ≠ .block body := fun body same => isBlock ⟨body, same⟩
      have plain := undeclaringItems (List.mem_of_getElem? here)
      have nothing : ((Phrase.stmt s).items.take index).flatMap Phrase.declares = [] := by
        rw [List.flatMap_eq_nil_iff]
        intro part member
        refine List.eq_nil_iff_forall_not_mem.mpr fun name named => ?_
        have known := branchNames noBlock (List.mem_of_mem_take member) name named
        rw [Stmt.undeclared (locatedProper proper located) plain] at known
        exact absurd known List.not_mem_nil
      have isPlain : (Phrase.stmt s).Plain := noBlock
      rw [nothing, introduceNone, (Phrase.plainInside isPlain address place).2.1] at scopes
      have gains := Gains.nothing place.context.scopes
      rw [← undeclaring plain] at gains
      have opens : (Phrase.stmt s).opens address (.item index) = [] := by
        cases s with
        | block body => exact absurd rfl (noBlock body)
        | _ => rfl
      refine ⟨[], _, scopes, gains, ?_⟩
      rw [opens]
      exact .nil

theorem partScopes (proper : ∀ p ∈ programs, Stmt.ProperAll p) (located : Located programs address place phrase)
    (inside : phrase.part? address place step = some (place', part)) :
    ∃ fresh kept, Enters programs address place phrase step place' fresh kept := by
  cases partInside inside with
  | item found => exact itemScopes proper located found
  | initializer => exact ⟨[], _, rfl, .declared _ _, .nil⟩
  | declared => exact ⟨[], _, namedScopes place _, .introduced _ _, .nil⟩
  | lambda => exact ⟨[], _, rfl, .nothing _, .nil⟩
  | @superclass name superclass =>
    have checked := steadyCheckSuperclass name superclass (place.inClass.named name).context
    have named := movesDeclaredAlone name place.inClass.context
    exact ⟨[], _, checked.scopes.trans ((introduceNone _).trans named.scopes), .introduced name _, .nil⟩
  | method _ found =>
    have scopes := (memberPlace found).2.trans (classScopes place address .receiver _)
    exact ⟨[_], _, scopes, .introduced _ _, .cons (knowsThis proper address rfl) .nil⟩
  | classMethod _ found =>
    have scopes := (memberPlace found).2.trans (classSideScopes place address _)
    exact ⟨[_], _, scopes, .introduced _ _, .cons (knowsThis proper address rfl) .nil⟩

theorem locatedKnows (proper : ∀ p ∈ programs, Stmt.ProperAll p) (located : Located programs address place phrase) :
    List.Forall₂ (Knows programs address) (enclosing programs address) place.context.scopes := by
  induction located with
  | program here => exact .nil
  | @part address place phrase step place' part outer inside ih =>
    obtain ⟨fresh, kept, enters⟩ := partScopes proper outer inside
    rw [enclosing, outer.opened, enters.scopes]
    exact List.rel_append enters.knows (knowsGains proper outer.phraseAt step ih enters.gains)

theorem Knows.named {site : Site} {scope : Scope} (knows : Knows programs address site scope) {name : String}
    (other : name ≠ "this") : scope.contains name = true ↔ DeclaredBefore programs site name ⟨address, 0⟩ := by
  rw [knows name]
  exact or_iff_right fun both => other both.2

theorem innermostKnows (proper : ∀ p ∈ programs, Stmt.ProperAll p) (located : Located programs address place phrase)
    {site : Site} (innermost : (enclosing programs address).head? = some site) :
    ∃ scope outside, place.context.scopes = scope :: outside ∧ Knows programs address site scope := by
  have knows := locatedKnows proper located
  cases all : enclosing programs address with
  | nil =>
    rw [all] at innermost
    cases innermost
  | cons first rest =>
    rw [all] at innermost knows
    cases innermost
    obtain ⟨scope, outside, known, _, scopes⟩ := List.forall₂_cons_left_iff.mp knows
    exact ⟨scope, outside, scopes, known⟩

end Exact

end Treewalk
