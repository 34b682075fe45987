import Treewalk.Proofs.Identity
import Treewalk.Proofs.Scoping

/-! Where a phrase stands. An address is the way to a phrase through the programs of a session; `locate` follows it
and gives the phrase as it was parsed with its place: the state of scope resolution when the walk gets there, and for
each open scope the site that opened it. -/
namespace Treewalk

open Walk

/- A step from a phrase to a part of it. The parts of a phrase that have no step of their own are its items. -/
inductive Step where
  | program (index : Nat)
  | item (index : Nat)
  | initializer
  | function
  | superclass
  | method (index : Nat)
  | classMethod (index : Nat)
  deriving DecidableEq, Repr

/- The last step comes first. -/
abbrev Address := List Step

/- Why a scope is open. A function has one scope for its parameters and one for its body. The one scope of a class
shows in two ways: as the frame of a receiver, or as the empty frame that the methods of the class itself close over. -/
inductive Role where
  | block
  | parameters
  | body
  | receiver
  | classSide
  deriving DecidableEq, Repr

structure Site where
  opener : Address
  role : Role
  deriving DecidableEq, Repr

inductive Phrase where
  | program (body : Program)
  | stmt (s : Stmt)
  | expr (e : Expr)
  | function (kind : FunctionContext) (decl : FunctionDecl)
  deriving DecidableEq

def Expr.parts : Expr → List Expr
  | .unary _ right _ => [right]
  | .binary left _ right _ => [left, right]
  | .logical left _ right _ => [left, right]
  | .ternary condition thenBranch elseBranch _ => [condition, thenBranch, elseBranch]
  | .grouping inner => [inner]
  | .assign _ value _ => [value]
  | .call callee arguments _ => callee :: arguments
  | .get object _ => [object]
  | .set object _ value => [object, value]
  | _ => []

namespace Phrase

def resolve : Phrase → Walk Phrase
  | .program body => return .program (← Stmt.resolveList body)
  | .stmt s => return .stmt (← s.resolve)
  | .expr e => return .expr (← e.resolve)
  | .function kind decl => return .function kind (← decl.resolve kind)

def declares : Phrase → List String
  | .program body => declaredNames body
  | .stmt s => s.declares
  | _ => []

def items : Phrase → List Phrase
  | .program body => body.map .stmt
  | .function _ decl => decl.body.map .stmt
  | .stmt (.block body) => body.map .stmt
  | .stmt (.expression e) => [.expr e]
  | .stmt (.print e) => [.expr e]
  | .stmt (.ifElse condition thenBranch none) => [.expr condition, .stmt thenBranch]
  | .stmt (.ifElse condition thenBranch (some elseBranch)) =>
    [.expr condition, .stmt thenBranch, .stmt elseBranch]
  | .stmt (.whileLoop condition body) => [.expr condition, .stmt body]
  | .stmt (.returnStmt _ (some e)) => [.expr e]
  | .expr e => e.parts.map .expr
  | _ => []

def resolveAll : List Phrase → Walk (List Phrase)
  | [] => return []
  | part :: rest => return (← part.resolve) :: (← resolveAll rest)

theorem resolveMoves : ∀ phrase : Phrase, phrase.resolve.Moves phrase.declares
  | .program body => (Stmt.resolveListMoves body).pure
  | .stmt s => s.resolveMoves.pure
  | .expr e => e.resolveSteady.pure
  | .function kind decl => (decl.resolveSteady kind).pure

end Phrase

structure Place where
  context : ScopeContext
  sites : List Site

namespace Place

def outermost : Place := ⟨.outermost, []⟩

def after (place : Place) (w : Walk α) : Place := { place with context := w.after place.context }

def enter (place : Place) (site : Site) (scope : Scope) : Place :=
  ⟨{ place.context with scopes := scope :: place.context.scopes }, site :: place.sites⟩

def inFunction (place : Place) (kind : FunctionContext) : Place :=
  { place with context := { place.context with function := kind } }

def inClass (place : Place) : Place := { place with context := { place.context with inClass := true } }

def thread (place : Place) : List Phrase → List (Place × Phrase)
  | [] => []
  | part :: rest => (place, part) :: (place.after part.resolve).thread rest

def named (place : Place) (name : Ident) : Place := (place.after (declare name)).after (define name)

def ofFunction (place : Place) (address : Address) (kind : FunctionContext) (params : List Ident) : Place :=
  (((place.inFunction kind).enter ⟨address, .parameters⟩ .empty).after (declareAll params)).enter
    ⟨address, .body⟩ .empty

def ofClass (place : Place) (address : Address) (role : Role) (decl : ClassDecl) : Place :=
  ((place.inClass.named decl.name).after (ClassDecl.resolveSuperclass decl.name decl.superclass)).enter
    ⟨address, role⟩ .ofThis

end Place

namespace Phrase

def inside (address : Address) (place : Place) : Phrase → Place
  | .stmt (.block _) => place.enter ⟨address, .block⟩ .empty
  | .stmt (.returnStmt keyword (some _)) => (place.after (checkReturn keyword)).after (checkReturnValue keyword)
  | .function kind decl => place.ofFunction address kind decl.params
  | _ => place

def part? (address : Address) (place : Place) : Phrase → Step → Option (Place × Phrase)
  | phrase, .item index => ((phrase.inside address place).thread phrase.items)[index]?
  | .stmt (.varDecl name (some initializer)), .initializer =>
    some (place.after (declare name), .expr initializer)
  | .stmt (.funDecl ⟨some name, params, body, line⟩), .function =>
    some (place.named name, .function .function ⟨some name, params, body, line⟩)
  | .expr (.lambda decl), .function => some (place, .function .lambda decl)
  | .stmt (.classDecl ⟨name, some superclass, _, _⟩), .superclass =>
    some ((place.inClass.named name).after (checkSuperclass name superclass), .expr superclass)
  | .stmt (.classDecl decl), .method index =>
    ((place.ofClass address .receiver decl).thread
      (decl.methods.map fun f => .function f.methodContext f))[index]?
  | .stmt (.classDecl decl), .classMethod index =>
    (((place.ofClass address .classSide decl).after (FunctionDecl.resolveMethods decl.methods)).thread
      (decl.classMethods.map (.function .classMethod)))[index]?
  | _, _ => none

end Phrase

def locate (programs : List Program) : Address → Option (Place × Phrase)
  | [] => none
  | [.program index] => programs[index]?.map fun body => (.outermost, .program body)
  | step :: address => do
    let (place, phrase) ← locate programs address
    phrase.part? address place step

/- The names that the scope of a site declares, as far as its frames bind them: the frame of a class side stays
empty. -/
def siteNames (programs : List Program) (site : Site) : List String :=
  match site.role, locate programs site.opener with
  | .block, some (_, .stmt (.block body)) => declaredNames body
  | .parameters, some (_, .function _ decl) => decl.params.map Ident.name
  | .body, some (_, .function _ decl) => declaredNames decl.body
  | .receiver, _ => ["this"]
  | _, _ => []

end Treewalk
