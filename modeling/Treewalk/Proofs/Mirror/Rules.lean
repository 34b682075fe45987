import Treewalk.Proofs.Invariant.Sessions
import Treewalk.Proofs.Mirror.Classes

/-! The frames of a run keep in step with the scopes: every action of a machine sees to it that all it holds on to
agrees with the places that code comes from, and after a statement the frames have caught up. -/
namespace Treewalk

theorem Elsewhere.alike {m m' : Machine} (away : Elsewhere m m') : Alike m m' :=
  ⟨congrArg Heap.frames away.heap, congrArg Heap.callables away.heap, congrArg Heap.classes away.heap, away.globals⟩

theorem HeapKept.alike {m m' : Machine} (kept : HeapKept m m') : Alike m m' :=
  ⟨congrArg Heap.frames kept.heap, congrArg Heap.callables kept.heap, congrArg Heap.classes kept.heap, kept.kept.globals⟩

namespace Setting
variable {g : Setting} {s s' : Observed}

theorem CalleeAt.grow {origin : Option Address} {target : Callee} (fits : g.CalleeAt s origin target)
    (grows : Grows s s') : g.CalleeAt s' origin target := by
  rcases target with (f | n) | cls
  · exact OfFunction.grow fits grows
  · trivial
  · trivial

theorem calleeFound {value : Value} {target : Callee} {origin : Option Address} (agrees : g.Agrees s)
    (found : s.machine.heap.callee? value = some target) (known : Watch.origin value s = .ok origin s) :
    g.CalleeAt s origin target := by
  cases value with
  | function id =>
    cases known
    obtain ⟨c, here, rfl⟩ := Option.map_eq_some_iff.mp found
    cases c with
    | function f => exact agrees.functions id f here
    | native n => trivial
  | classObject id =>
    cases found
    trivial
  | _ => cases found

theorem parameterKnown {origin : Option Address} {f : Function} {param : Ident} (fits : g.OfFunction s origin f)
    (grows : Grows (s.addFrame f.closure (siteOf origin .parameters)) s') (member : param ∈ f.decl.params) :
    ∀ site, s'.shadow.sites s.frames.nextId = some site → param.name ∈ siteNames g.programs site := by
  have made := (grows.frames _ _ (addedFrame s f.closure (siteOf origin .parameters))).1
  rw [made, addedSite]
  exact fun site here => parametersKnown fits site here param member

def invariant (g : Setting) : Invariant where
  Holds := g.Agrees
  Moves s s' := g.Agrees s' ∧ Later s s'
  Node := g.NodeAt
  Body := g.ItemsAt
  Passed := g.Passed
  Sees _ _ := True
  Calls := g.CalleeAt
  Binds _ _ _ := True

theorem mirrored (g : Setting) : g.invariant.Inductive where
  holds moves := moves.1
  refl agrees := ⟨agrees, .refl _⟩
  trans first second := ⟨second.1, first.2.trans second.2⟩
  node here moves := NodeAt.later here moves.2
  sees _ _ := trivial
  recorded moment agrees here := ⟨Agrees.record agrees here moment, laterRecord _ _ _ moment⟩
  heapKept agrees kept := ⟨Agrees.alike agrees kept.alike, .alike kept.alike, kept.kept.environment⟩
  holdsElsewhere away agrees := Agrees.alike agrees away.alike
  seesElsewhere _ _ := trivial
  callsElsewhere away fits := CalleeAt.grow fits (.alike away.alike)
  movesElsewhere away inner back environment _ := by
    refine ⟨inner.1.alike back.alike, ?_, environment inner.2.environment⟩
    exact (Grows.alike away.alike).trans (inner.2.grows.trans (.alike back.alike))
  item here plain found := NodeAt.item here plain found
  initializer here := NodeAt.varDecl here _ rfl
  parent here up := NodeAt.parent here up
  first here := ItemsAt.head here
  rest here moves passed := ItemsAt.tail here moves.2 passed
  passed here moves plain := NodeAt.passed here moves.2 plain
  plain _ := trivial
  named _ _ _ := trivial
  field _ _ _ _ := trivial
  received _ _ _ := trivial
  hosts _ _ _ _ := trivial
  called _ _ moves _ found known _ moves' := (calleeFound moves.1 found known).grow moves'.2.grows
  lambda _ here := NodeAt.lambda here
  classMethod agrees _ found := classMethodFound agrees found
  accessed _ _ _ := trivial
  bound agrees _ _ _ _ found := by
    obtain ⟨fits, function⟩ := boundMethod agrees (methodFound agrees found) _
    exact ⟨⟨fits, (laterAddFrame _ _ _).trans (laterDefine _ _ _ _)⟩, function⟩
  assigned agrees _ _ found := ⟨Agrees.define agrees fun _ _ => .inr (holderBound found), laterDefine _ _ _ _⟩
  fieldSet _ agrees _ _ := ⟨Agrees.alike agrees ⟨rfl, rfl, rfl, rfl⟩, .alike ⟨rfl, rfl, rfl, rfl⟩, rfl⟩
  variableDefined agrees here _ := by
    obtain ⟨fits, passed⟩ := definedVariable agrees here _
    exact ⟨⟨fits, laterDefine _ _ _ _⟩, passed⟩
  functionMade agrees fits := ⟨⟨Agrees.addFunction agrees fits, growsAddFunction _ _ _, rfl⟩, trivial⟩
  functionDeclared agrees here same := by
    subst same
    obtain ⟨fits, passed⟩ := declaredFunction agrees here _
    exact ⟨⟨fits, (growsAddFunction _ _ _).trans (growsDefine _ _ _ _), rfl⟩, passed⟩
  classDeclared _ here _ moves _ same := by
    subst same
    obtain ⟨fits, passed⟩ := declaredClass moves.1 here _ _
    exact ⟨⟨fits, (growsWithClass _ _ _ _).trans (growsDefine _ _ _ _), rfl⟩, passed⟩
  instanceMade agrees _ same := by
    subst same
    exact ⟨⟨Agrees.alike agrees ⟨rfl, rfl, rfl, rfl⟩, .alike ⟨rfl, rfl, rfl, rfl⟩, rfl⟩, trivial, trivial⟩
  blockOpened agrees here same := by
    subst same
    exact ⟨⟨Agrees.addFrame agrees _ _, laterAddFrame _ _ _⟩, NodeAt.block here⟩
  functionOpened agrees _ := ⟨Agrees.addFrame agrees _ _, laterAddFrame _ _ _⟩
  parameterBound _ fits moves member _ :=
    ⟨moves.1.define fun site made => .inl (parameterKnown fits moves.2.grows member site made), laterDefine _ _ _ _⟩
  bodyOpened _ fits moves bound same := by
    subst same
    exact ⟨⟨moves.1.addFrame _ _, laterAddFrame _ _ _⟩, functionItems fits moves.2 bound⟩

end Setting
end Treewalk
