import Treewalk.Proofs.Mirror.Calls
import Treewalk.Proofs.Places.Entered

/-! Declarations. What a declaration makes closes over frames that have the declared name already, or will have it as
soon as the declaration is done: until then nothing can run it. -/
namespace Treewalk

open Walk

theorem chainSite {programs : List Program} {s : Observed} {scopes : List Scope} {sites : List Site}
    {frame : FrameId} (chain : FrameChain s scopes sites frame) (framed : Framed programs s) :
    s.shadow.sites frame = sites.head? := by
  cases chain with
  | globals => exact framed.rootSite
  | inner made link bound outer => exact made

theorem chainDeclare {s : Observed} {c : ScopeContext} {sites : List Site} {frame : FrameId}
    (chain : FrameChain s c.scopes sites frame) (name : Ident) :
    FrameChain s ((declare name).after c).scopes sites frame := by
  rw [declareAfter]
  cases h : c.scopes with
  | nil =>
    rw [h] at chain
    simpa only [h] using chain
  | cons scope outer =>
    rw [h] at chain
    dsimp only
    split
    · simpa only [h] using chain
    · cases chain with
      | inner made link bound rest =>
        refine .inner made link ?_ rest
        intro other complete
        rw [Table.findInsert] at complete
        split at complete
        · cases complete
        · exact bound other complete

theorem Stmt.resolvedDeclaring {source : Stmt} (declaring : source.Declaring) (c : ScopeContext) :
    (source.resolve.result c).Declaring := by
  cases source with
  | varDecl name initializer => cases initializer <;> trivial
  | funDecl decl =>
    obtain ⟨name, params, body, line⟩ := decl
    cases name <;> trivial
  | classDecl decl => trivial
  | _ => exact declaring.elim

namespace Setting
variable {g : Setting} {s : Observed} {address : Option Address}

theorem NodeAt.source {st : Stmt} {way : Address} (here : g.NodeAt s (some way) (.stmt st)) :
    ∃ place source, Located g.programs way place (.stmt source) ∧ source.MadeFrom place.context st ∧
      source.Proper ∧ FrameChain s place.context.scopes place.sites s.machine.environment := by
  obtain ⟨place, phrase, located, resolved, scopes, chain, reflects⟩ := here
  obtain ⟨source, rfl, same⟩ := resolvedStmt resolved
  have made := source.madeFrom place.context
  have proper : source.Proper := locatedProper g.proper located
  rw [← same] at made
  cases reflects with
  | inl whole =>
    subst whole
    exact ⟨place, source, located, made, proper, chain⟩
  | inr name =>
    obtain ⟨name, depth, isName, _⟩ := name
    exact nomatch isName

theorem passedAt {way : Address} {place : Place} {phrase : Phrase} (located : Located g.programs way place phrase)
    (chain : FrameChain s (introduce phrase.declares place.context.scopes) place.sites s.machine.environment) :
    g.Passed s (some way) := by
  intro other place' phrase' same located'
  cases same
  obtain ⟨rfl, rfl⟩ := located.unique located'
  exact chain

theorem NodeAt.passed {st : Stmt} {s' : Observed} (here : g.NodeAt s address (.stmt st)) (later : Later s s')
    (plain : ¬ st.Declaring) : g.Passed s' address := by
  cases address with
  | none => exact nofun
  | some way =>
    obtain ⟨place, source, located, _, proper, chain⟩ := here.source
    obtain ⟨place', phrase, located', resolved, _⟩ := here
    obtain ⟨rfl, rfl⟩ := located.unique located'
    obtain ⟨_, same, rfl⟩ := resolvedStmt resolved
    cases same
    have nothing : (Phrase.stmt source).declares = [] :=
      Stmt.undeclared proper fun declaring => plain (Stmt.resolvedDeclaring declaring place.context)
    apply passedAt located
    rw [nothing, introduceNone, later.environment]
    exact chain.grow later.grows

theorem declaredKnown {source : Stmt} {way : Address} {place : Place} {name : String} {frame : FrameId}
    (framed : Framed g.programs s) (located : Located g.programs way place (.stmt source))
    (declared : name ∈ source.declares) (chain : FrameChain s place.context.scopes place.sites frame) :
    ∀ site, s.shadow.sites frame = some site → name ∈ siteNames g.programs site := by
  intro site made
  rw [chainSite chain framed] at made
  exact locatedNames located made name declared

theorem Outside.noSite {P : Prop} {site : Site} (h : g.Outside s)
    (made : s.shadow.sites s.machine.environment = some site) : P :=
  nomatch h.2.1.symm.trans made

theorem NodeAt.varDecl {name : Ident} {initializer : Option Expr}
    (here : g.NodeAt s address (.stmt (.varDecl name initializer))) (e : Expr) (initialized : initializer = some e) :
    g.NodeAt s (within? address .initializer) (.expr e) := by
  cases address with
  | none => exact here
  | some way =>
    obtain ⟨place, source, located, made, _, chain⟩ := here.source
    obtain ⟨initializer', rfl, resolved⟩ := made
    obtain ⟨e', rfl, rfl⟩ := resolved e initialized
    exact ⟨place.after (declare name), .expr e', .part located rfl, rfl, _, chainDeclare chain name, .inl rfl⟩

theorem definedVariable {name : Ident} {initializer : Option Expr} (agrees : g.Agrees s)
    (here : g.NodeAt s address (.stmt (.varDecl name initializer))) (value : Value) :
    g.Agrees (s.define s.machine.environment name.name value) ∧
    g.Passed (s.define s.machine.environment name.name value) address := by
  cases address with
  | none => exact ⟨agrees.define fun site made => Outside.noSite here made, nofun⟩
  | some way =>
    obtain ⟨place, source, located, made, _, chain⟩ := here.source
    obtain ⟨initializer', rfl, _⟩ := made
    have known := declaredKnown agrees.framed located (List.mem_singleton_self name.name) chain
    exact ⟨agrees.define fun site made => .inl (known site made), passedAt located (chainDefine chain name.name value)⟩

theorem NodeAt.lambda {decl : FunctionDecl} (here : g.NodeAt s address (.expr (.lambda decl))) :
    g.OfFunction s (within? address .function) ⟨decl, s.machine.environment, false⟩ := by
  cases address with
  | none => exact here.1
  | some way =>
    obtain ⟨place, phrase, located, resolved, scopes, chain, reflects⟩ := here
    obtain ⟨source, rfl, same⟩ := resolvedExpr resolved
    cases source with
    | lambda decl' =>
      cases same
      cases reflects with
      | inl whole =>
        subst whole
        exact ⟨place, .lambda, decl', .part located rfl, rfl, chain⟩
      | inr name =>
        obtain ⟨name, depth, isName, _⟩ := name
        exact nomatch isName
    | _ => exact nomatch same

theorem Agrees.addNamed {f : Function} {origin : Option Address} {frame : FrameId} {name : String} {value : Value}
    (agrees : g.Agrees s) (known : ∀ site, s.shadow.sites frame = some site → name ∈ siteNames g.programs site)
    (fits : g.OfFunction ((s.addFunction (.function f) origin).define frame name value) origin f) :
    g.Agrees ((s.addFunction (.function f) origin).define frame name value) := by
  have added := growsAddFunction s (.function f) origin
  have framed : Framed g.programs (s.addFunction (.function f) origin) :=
    ⟨agrees.framed.root, agrees.framed.rootSite, agrees.framed.names⟩
  apply agrees.extend (added.trans (growsDefine _ frame name value))
    (framedDefine framed fun site made => .inl (known site made))
  · intro id f' found
    obtain before | ⟨new, traced⟩ := callableAdded found
    · exact .inl before
    · cases new
      have same : ((s.addFunction (.function f) origin).define frame name value).shadow.functions id = origin := traced
      rw [same]
      exact .inr fits
  · exact fun id c found => .inl ⟨found, rfl, rfl⟩
  · rfl

theorem declaredFunction {decl : FunctionDecl} (agrees : g.Agrees s)
    (here : g.NodeAt s address (.stmt (.funDecl decl))) (value : Value) :
    g.Agrees ((s.addFunction (.function ⟨decl, s.machine.environment, false⟩) (within? address .function)).define
      s.machine.environment decl.label value) ∧
    g.Passed ((s.addFunction (.function ⟨decl, s.machine.environment, false⟩) (within? address .function)).define
      s.machine.environment decl.label value) address := by
  cases address with
  | none => exact ⟨agrees.addNamed (fun site made => Outside.noSite here made) here.1, nofun⟩
  | some way =>
    obtain ⟨place, source, located, made, proper, chain⟩ := here.source
    obtain ⟨name, params, body, line, rfl, resolved⟩ := made
    cases name with
    | none => exact absurd rfl proper.1
    | some name =>
      have same := resolved name rfl
      subst same
      have known := declaredKnown agrees.framed located (List.mem_singleton_self name.name) chain
      have named := chainDefine (chain.grow (growsAddFunction s (.function ⟨(FunctionDecl.resolve .function
        ⟨some name, params, body, line⟩).result ((define name).after ((declare name).after place.context)),
        s.machine.environment, false⟩) (some (.function :: way)))) name.name value
      constructor
      · apply agrees.addNamed known
        refine ⟨place.named name, .function, ⟨some name, params, body, line⟩, .part located rfl, rfl, ?_⟩
        rw [namedScopes]
        exact named
      · exact passedAt located named

end Setting
end Treewalk
