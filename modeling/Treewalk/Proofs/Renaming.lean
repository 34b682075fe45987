import Treewalk.Proofs.Lexical.Scopes
import Treewalk.Proofs.Twins

/-! Another name for a local variable. The tree of a program after scope resolution tells which uses are bound to the
variable; there and where it is declared the name is replaced, all else stays, slots included. To see what resolution
makes of the new program, the slots are emptied again. -/
namespace Treewalk

open Walk

structure Renaming where
  site : Site
  old : String
  new : String
  oldName : old ≠ "this"
  newName : new ≠ "this"

namespace Renaming
variable (r : Renaming)

def write (here : Bool) (name : Ident) : Ident := if here && name.name == r.old then ⟨r.new, name.line⟩ else name

def hits (site : Site) : Bool := site == r.site

def bound (sites : List Site) : Depth → Bool
  | none => false
  | some depth => sites[depth]?.any r.hits

def declared (sites : List Site) : Bool := sites.head?.any r.hits

end Renaming

mutual

def Expr.renamed (r : Renaming) (address : Address) (sites : List Site) : Expr → Expr
  | .literal value line => .literal value line
  | .unary op right line => .unary op (right.renamed r (.item 0 :: address) sites) line
  | .binary left op right line =>
    .binary (left.renamed r (.item 0 :: address) sites) op (right.renamed r (.item 1 :: address) sites) line
  | .logical left op right line =>
    .logical (left.renamed r (.item 0 :: address) sites) op (right.renamed r (.item 1 :: address) sites) line
  | .ternary condition thenBranch elseBranch line =>
    .ternary (condition.renamed r (.item 0 :: address) sites) (thenBranch.renamed r (.item 1 :: address) sites)
      (elseBranch.renamed r (.item 2 :: address) sites) line
  | .grouping inner => .grouping (inner.renamed r (.item 0 :: address) sites)
  | .var name slot => .var (r.write (r.bound sites slot) name) slot
  | .assign name value slot =>
    .assign (r.write (r.bound sites slot) name) (value.renamed r (.item 0 :: address) sites) slot
  | .call callee arguments line =>
    .call (callee.renamed r (.item 0 :: address) sites) (Expr.renamedAll r address sites 1 arguments) line
  | .get object name => .get (object.renamed r (.item 0 :: address) sites) name
  | .set object name value =>
    .set (object.renamed r (.item 0 :: address) sites) name (value.renamed r (.item 1 :: address) sites)
  | .this keyword slot => .this keyword slot
  | .lambda decl => .lambda (decl.renamed r (.function :: address) sites)
termination_by structural e => e

def Expr.renamedAll (r : Renaming) (address : Address) (sites : List Site) (index : Nat) : List Expr → List Expr
  | [] => []
  | e :: rest => e.renamed r (.item index :: address) sites :: Expr.renamedAll r address sites (index + 1) rest
termination_by structural es => es

def Stmt.renamed (r : Renaming) (address : Address) (sites : List Site) : Stmt → Stmt
  | .expression value => .expression (value.renamed r (.item 0 :: address) sites)
  | .print value => .print (value.renamed r (.item 0 :: address) sites)
  | .varDecl name none => .varDecl (r.write (r.declared sites) name) none
  | .varDecl name (some initializer) =>
    .varDecl (r.write (r.declared sites) name) (some (initializer.renamed r (.initializer :: address) sites))
  | .block body => .block (Stmt.renamedAll r address (⟨address, .block⟩ :: sites) 0 body)
  | .ifElse condition thenBranch none =>
    .ifElse (condition.renamed r (.item 0 :: address) sites) (thenBranch.renamed r (.item 1 :: address) sites) none
  | .ifElse condition thenBranch (some elseBranch) =>
    .ifElse (condition.renamed r (.item 0 :: address) sites) (thenBranch.renamed r (.item 1 :: address) sites)
      (some (elseBranch.renamed r (.item 2 :: address) sites))
  | .whileLoop condition body =>
    .whileLoop (condition.renamed r (.item 0 :: address) sites) (body.renamed r (.item 1 :: address) sites)
  | .funDecl decl => .funDecl (decl.renamed r (.function :: address) sites)
  | .classDecl decl => .classDecl (decl.renamed r address sites)
  | .returnStmt keyword none => .returnStmt keyword none
  | .returnStmt keyword (some value) => .returnStmt keyword (some (value.renamed r (.item 0 :: address) sites))
termination_by structural s => s

def Stmt.renamedAll (r : Renaming) (address : Address) (sites : List Site) (index : Nat) : List Stmt → List Stmt
  | [] => []
  | s :: rest => s.renamed r (.item index :: address) sites :: Stmt.renamedAll r address sites (index + 1) rest
termination_by structural body => body

def FunctionDecl.renamed (r : Renaming) (address : Address) (sites : List Site) : FunctionDecl → FunctionDecl
  | ⟨name, params, body, line⟩ => ⟨name, params.map (r.write (r.hits ⟨address, .parameters⟩)),
      Stmt.renamedAll r address (⟨address, .body⟩ :: ⟨address, .parameters⟩ :: sites) 0 body, line⟩
termination_by structural decl => decl

def FunctionDecl.renamedAll (r : Renaming) (step : Nat → Step) (address : Address) (sites : List Site) (index : Nat) :
    List FunctionDecl → List FunctionDecl
  | [] => []
  | f :: rest => f.renamed r (step index :: address) sites ::
      FunctionDecl.renamedAll r step address sites (index + 1) rest
termination_by structural decls => decls

def ClassDecl.renamedSuperclass (r : Renaming) (address : Address) (sites : List Site) : Option Expr → Option Expr
  | none => none
  | some e => some (e.renamed r (.superclass :: address) sites)
termination_by structural superclass => superclass

def ClassDecl.renamed (r : Renaming) (address : Address) (sites : List Site) : ClassDecl → ClassDecl
  | ⟨name, superclass, methods, classMethods⟩ => ⟨name, ClassDecl.renamedSuperclass r address sites superclass,
      FunctionDecl.renamedAll r .method address (⟨address, .receiver⟩ :: sites) 0 methods,
      FunctionDecl.renamedAll r .classMethod address (⟨address, .classSide⟩ :: sites) 0 classMethods⟩
termination_by structural decl => decl

end

def Program.renamed (r : Renaming) (program : Program) : Program := Stmt.renamedAll r [.program 0] [] 0 program

mutual

def Expr.cleared : Expr → Expr
  | .literal value line => .literal value line
  | .unary op right line => .unary op right.cleared line
  | .binary left op right line => .binary left.cleared op right.cleared line
  | .logical left op right line => .logical left.cleared op right.cleared line
  | .ternary condition thenBranch elseBranch line =>
    .ternary condition.cleared thenBranch.cleared elseBranch.cleared line
  | .grouping inner => .grouping inner.cleared
  | .var name _ => .var name none
  | .assign name value _ => .assign name value.cleared none
  | .call callee arguments line => .call callee.cleared (Expr.clearedAll arguments) line
  | .get object name => .get object.cleared name
  | .set object name value => .set object.cleared name value.cleared
  | .this keyword _ => .this keyword none
  | .lambda decl => .lambda decl.cleared
termination_by structural e => e

def Expr.clearedAll : List Expr → List Expr
  | [] => []
  | e :: rest => e.cleared :: Expr.clearedAll rest
termination_by structural es => es

def Stmt.cleared : Stmt → Stmt
  | .expression value => .expression value.cleared
  | .print value => .print value.cleared
  | .varDecl name none => .varDecl name none
  | .varDecl name (some initializer) => .varDecl name (some initializer.cleared)
  | .block body => .block (Stmt.clearedAll body)
  | .ifElse condition thenBranch none => .ifElse condition.cleared thenBranch.cleared none
  | .ifElse condition thenBranch (some elseBranch) =>
    .ifElse condition.cleared thenBranch.cleared (some elseBranch.cleared)
  | .whileLoop condition body => .whileLoop condition.cleared body.cleared
  | .funDecl decl => .funDecl decl.cleared
  | .classDecl decl => .classDecl decl.cleared
  | .returnStmt keyword none => .returnStmt keyword none
  | .returnStmt keyword (some value) => .returnStmt keyword (some value.cleared)
termination_by structural s => s

def Stmt.clearedAll : List Stmt → List Stmt
  | [] => []
  | s :: rest => s.cleared :: Stmt.clearedAll rest
termination_by structural body => body

def FunctionDecl.cleared : FunctionDecl → FunctionDecl
  | ⟨name, params, body, line⟩ => ⟨name, params, Stmt.clearedAll body, line⟩
termination_by structural decl => decl

def FunctionDecl.clearedAll : List FunctionDecl → List FunctionDecl
  | [] => []
  | f :: rest => f.cleared :: FunctionDecl.clearedAll rest
termination_by structural decls => decls

def ClassDecl.clearedSuperclass : Option Expr → Option Expr
  | none => none
  | some e => some e.cleared
termination_by structural superclass => superclass

def ClassDecl.cleared : ClassDecl → ClassDecl
  | ⟨name, superclass, methods, classMethods⟩ =>
    ⟨name, ClassDecl.clearedSuperclass superclass, FunctionDecl.clearedAll methods, FunctionDecl.clearedAll classMethods⟩
termination_by structural decl => decl

end

mutual

/- The names that are used or declared as those of variables. Those of properties and methods are in no scope. -/
def Expr.words : Expr → List String
  | .literal _ _ => []
  | .unary _ right _ => right.words
  | .binary left _ right _ => left.words ++ right.words
  | .logical left _ right _ => left.words ++ right.words
  | .ternary condition thenBranch elseBranch _ => condition.words ++ (thenBranch.words ++ elseBranch.words)
  | .grouping inner => inner.words
  | .var name _ => [name.name]
  | .assign name value _ => name.name :: value.words
  | .call callee arguments _ => callee.words ++ Expr.wordsAll arguments
  | .get object _ => object.words
  | .set object _ value => object.words ++ value.words
  | .this _ _ => []
  | .lambda decl => decl.words
termination_by structural e => e

def Expr.wordsAll : List Expr → List String
  | [] => []
  | e :: rest => e.words ++ Expr.wordsAll rest
termination_by structural es => es

def Stmt.words : Stmt → List String
  | .expression value => value.words
  | .print value => value.words
  | .varDecl name none => [name.name]
  | .varDecl name (some initializer) => name.name :: initializer.words
  | .block body => Stmt.wordsAll body
  | .ifElse condition thenBranch none => condition.words ++ thenBranch.words
  | .ifElse condition thenBranch (some elseBranch) => condition.words ++ (thenBranch.words ++ elseBranch.words)
  | .whileLoop condition body => condition.words ++ body.words
  | .funDecl decl => decl.label :: decl.words
  | .classDecl decl => decl.words
  | .returnStmt _ none => []
  | .returnStmt _ (some value) => value.words
termination_by structural s => s

def Stmt.wordsAll : List Stmt → List String
  | [] => []
  | s :: rest => s.words ++ Stmt.wordsAll rest
termination_by structural body => body

def FunctionDecl.words : FunctionDecl → List String
  | ⟨_, params, body, _⟩ => params.map Ident.name ++ Stmt.wordsAll body
termination_by structural decl => decl

def FunctionDecl.wordsAll : List FunctionDecl → List String
  | [] => []
  | f :: rest => f.words ++ FunctionDecl.wordsAll rest
termination_by structural decls => decls

def ClassDecl.wordsSuperclass : Option Expr → List String
  | none => []
  | some e => e.words
termination_by structural superclass => superclass

def ClassDecl.words : ClassDecl → List String
  | ⟨name, superclass, methods, classMethods⟩ =>
    name.name :: (ClassDecl.wordsSuperclass superclass ++
      (FunctionDecl.wordsAll methods ++ FunctionDecl.wordsAll classMethods))
termination_by structural decl => decl

end

/- Resolution fills slots and does nothing else: of a tree whose slots are empty, emptying them leaves the tree. -/
mutual

theorem Expr.clearedResolved : ∀ (e : Expr) (c : ScopeContext), e.Proper → (e.resolve.result c).cleared = e
  | .literal _ _, _, _ => rfl
  | .unary op right line, c, proper => congrArg (Expr.unary op · line) (right.clearedResolved c proper)
  | .binary left op right line, c, proper =>
    congrArg₂ (Expr.binary · op · line) (left.clearedResolved c proper.1) (right.clearedResolved _ proper.2)
  | .logical left op right line, c, proper =>
    congrArg₂ (Expr.logical · op · line) (left.clearedResolved c proper.1) (right.clearedResolved _ proper.2)
  | .ternary condition thenBranch elseBranch line, c, proper => by
    have first := condition.clearedResolved c proper.1
    have second := thenBranch.clearedResolved (condition.resolve.after c) proper.2.1
    have third := elseBranch.clearedResolved (thenBranch.resolve.after (condition.resolve.after c)) proper.2.2
    exact (congrArg₂ (Expr.ternary · · _ line) first second).trans (congrArg (Expr.ternary _ _ · line) third)
  | .grouping inner, c, proper => congrArg Expr.grouping (inner.clearedResolved c proper)
  | .var name _, _, proper => congrArg (Expr.var name) proper.2.symm
  | .assign name value _, c, proper =>
    congrArg₂ (Expr.assign name) (value.clearedResolved c proper.2.2) proper.2.1.symm
  | .call callee arguments line, c, proper =>
    congrArg₂ (Expr.call · · line) (callee.clearedResolved c proper.1) (Expr.clearedResolvedAll arguments _ proper.2)
  | .get object name, c, proper => congrArg (Expr.get · name) (object.clearedResolved c proper)
  | .set object name value, c, proper =>
    congrArg₂ (Expr.set · name ·) (object.clearedResolved c proper.1) (value.clearedResolved _ proper.2)
  | .this keyword _, _, proper => congrArg (Expr.this keyword) proper.2.symm
  | .lambda decl, c, proper => congrArg Expr.lambda (decl.clearedResolved .lambda c proper)
termination_by structural e => e

theorem Expr.clearedResolvedAll : ∀ (es : List Expr) (c : ScopeContext), Expr.ProperAll es →
    Expr.clearedAll ((Expr.resolveList es).result c) = es
  | [], _, _ => rfl
  | e :: rest, c, proper =>
    congrArg₂ List.cons (e.clearedResolved c proper.1) (Expr.clearedResolvedAll rest _ proper.2)
termination_by structural es => es

theorem Stmt.clearedResolved : ∀ (s : Stmt) (c : ScopeContext), s.Proper → (s.resolve.result c).cleared = s
  | .expression value, c, proper => congrArg Stmt.expression (value.clearedResolved c proper)
  | .print value, c, proper => congrArg Stmt.print (value.clearedResolved c proper)
  | .varDecl _ none, _, _ => rfl
  | .varDecl name (some initializer), c, proper =>
    congrArg (Stmt.varDecl name ∘ some) (initializer.clearedResolved ((declare name).after c) proper.2)
  | .block body, c, proper =>
    congrArg Stmt.block (Stmt.clearedResolvedAll body { c with scopes := .empty :: c.scopes } proper)
  | .ifElse condition thenBranch none, c, proper =>
    congrArg₂ (Stmt.ifElse · · none) (condition.clearedResolved c proper.1) (thenBranch.clearedResolved _ proper.2.1)
  | .ifElse condition thenBranch (some elseBranch), c, proper => by
    have first := condition.clearedResolved c proper.1
    have second := thenBranch.clearedResolved (condition.resolve.after c) proper.2.1
    have third := elseBranch.clearedResolved (thenBranch.resolve.after (condition.resolve.after c)) proper.2.2.2.1
    exact (congrArg₂ (Stmt.ifElse · · _) first second).trans (congrArg (Stmt.ifElse _ _ <| some ·) third)
  | .whileLoop condition body, c, proper =>
    congrArg₂ Stmt.whileLoop (condition.clearedResolved c proper.1) (body.clearedResolved _ proper.2.1)
  | .funDecl ⟨none, _, _, _⟩, _, proper => absurd rfl proper.1
  | .funDecl ⟨some name, params, body, line⟩, c, proper => by
    have inner := FunctionDecl.clearedResolved .function ⟨some name, params, body, line⟩
      ((define name).after ((declare name).after c)) proper.2
    exact congrArg Stmt.funDecl inner
  | .classDecl decl, c, proper => congrArg Stmt.classDecl (decl.clearedResolved c proper)
  | .returnStmt _ none, _, _ => rfl
  | .returnStmt keyword (some value), c, proper => by
    have inner := value.clearedResolved ((checkReturnValue keyword).after ((checkReturn keyword).after c)) proper
    exact congrArg (Stmt.returnStmt keyword ∘ some) inner
termination_by structural s => s

theorem Stmt.clearedResolvedAll : ∀ (body : List Stmt) (c : ScopeContext), Stmt.ProperAll body →
    Stmt.clearedAll ((Stmt.resolveList body).result c) = body
  | [], _, _ => rfl
  | s :: rest, c, proper =>
    congrArg₂ List.cons (s.clearedResolved c proper.1) (Stmt.clearedResolvedAll rest _ proper.2)
termination_by structural body => body

theorem FunctionDecl.clearedResolved : ∀ (kind : FunctionContext) (decl : FunctionDecl) (c : ScopeContext),
    decl.Proper → ((decl.resolve kind).result c).cleared = decl
  | kind, ⟨name, params, body, line⟩, c, proper => by
    have inner := Stmt.clearedResolvedAll body { (declareAll params).after
      { c with function := kind, scopes := .empty :: c.scopes } with
        scopes := .empty :: ((declareAll params).after { c with function := kind, scopes := .empty :: c.scopes }).scopes }
      proper.2
    exact congrArg (FunctionDecl.mk name params · line) inner
termination_by structural _ decl => decl

theorem FunctionDecl.clearedMethods : ∀ (decls : List FunctionDecl) (c : ScopeContext), FunctionDecl.ProperAll decls →
    FunctionDecl.clearedAll ((FunctionDecl.resolveMethods decls).result c) = decls
  | [], _, _ => rfl
  | f :: rest, c, proper =>
    congrArg₂ List.cons (f.clearedResolved f.methodContext c proper.1) (FunctionDecl.clearedMethods rest _ proper.2)
termination_by structural decls => decls

theorem FunctionDecl.clearedClassMethods : ∀ (decls : List FunctionDecl) (c : ScopeContext),
    FunctionDecl.ProperAll decls → FunctionDecl.clearedAll ((FunctionDecl.resolveClassMethods decls).result c) = decls
  | [], _, _ => rfl
  | f :: rest, c, proper =>
    congrArg₂ List.cons (f.clearedResolved .classMethod c proper.1) (FunctionDecl.clearedClassMethods rest _ proper.2)
termination_by structural decls => decls

theorem ClassDecl.clearedResolved : ∀ (decl : ClassDecl) (c : ScopeContext), decl.Proper →
    (decl.resolve.result c).cleared = decl
  | ⟨name, superclass, methods, classMethods⟩, c, proper => by
    have parent : ∀ c', ClassDecl.clearedSuperclass ((ClassDecl.resolveSuperclass name superclass).result c') =
        superclass := by
      intro c'
      cases superclass with
      | none => rfl
      | some e =>
        obtain ⟨ident, rfl, _⟩ := proper.1 e rfl
        rfl
    have first := fun c' => FunctionDecl.clearedMethods methods c' proper.2.1.1
    have second := fun c' => FunctionDecl.clearedClassMethods classMethods c' proper.2.1.2
    exact (congrArg₂ (ClassDecl.mk name · · _) (parent _) (first _)).trans (congrArg (ClassDecl.mk name _ _) (second _))
termination_by structural decl => decl

end

mutual

theorem Expr.wordsCleared (e : Expr) : e.cleared.words = e.words := by
  cases e with
  | literal value line => rfl
  | unary op right line => exact right.wordsCleared
  | binary left op right line => exact congrArg₂ (· ++ ·) left.wordsCleared right.wordsCleared
  | logical left op right line => exact congrArg₂ (· ++ ·) left.wordsCleared right.wordsCleared
  | ternary condition thenBranch elseBranch line =>
    exact congrArg₂ (· ++ ·) condition.wordsCleared
      (congrArg₂ (· ++ ·) thenBranch.wordsCleared elseBranch.wordsCleared)
  | grouping inner => exact inner.wordsCleared
  | var name slot => rfl
  | assign name value slot => exact congrArg (name.name :: ·) value.wordsCleared
  | call callee arguments line => exact congrArg₂ (· ++ ·) callee.wordsCleared (Expr.wordsClearedAll arguments)
  | get object name => exact object.wordsCleared
  | set object name value => exact congrArg₂ (· ++ ·) object.wordsCleared value.wordsCleared
  | this keyword slot => rfl
  | lambda decl => exact decl.wordsCleared
termination_by structural e

theorem Expr.wordsClearedAll (es : List Expr) : Expr.wordsAll (Expr.clearedAll es) = Expr.wordsAll es := by
  cases es with
  | nil => rfl
  | cons e rest => exact congrArg₂ (· ++ ·) e.wordsCleared (Expr.wordsClearedAll rest)
termination_by structural es

theorem Stmt.wordsCleared (s : Stmt) : s.cleared.words = s.words := by
  cases s with
  | expression value => exact value.wordsCleared
  | print value => exact value.wordsCleared
  | varDecl name initializer =>
    cases initializer with
    | none => rfl
    | some initializer => exact congrArg (name.name :: ·) initializer.wordsCleared
  | block body => exact Stmt.wordsClearedAll body
  | ifElse condition thenBranch elseBranch =>
    cases elseBranch with
    | none => exact congrArg₂ (· ++ ·) condition.wordsCleared thenBranch.wordsCleared
    | some elseBranch =>
      exact congrArg₂ (· ++ ·) condition.wordsCleared
        (congrArg₂ (· ++ ·) thenBranch.wordsCleared elseBranch.wordsCleared)
  | whileLoop condition body => exact congrArg₂ (· ++ ·) condition.wordsCleared body.wordsCleared
  | funDecl decl =>
    have label : decl.cleared.label = decl.label := by
      cases decl
      rfl
    exact congrArg₂ List.cons label decl.wordsCleared
  | classDecl decl => exact decl.wordsCleared
  | returnStmt keyword value =>
    cases value with
    | none => rfl
    | some value => exact value.wordsCleared
termination_by structural s

theorem Stmt.wordsClearedAll (body : List Stmt) : Stmt.wordsAll (Stmt.clearedAll body) = Stmt.wordsAll body := by
  cases body with
  | nil => rfl
  | cons s rest => exact congrArg₂ (· ++ ·) s.wordsCleared (Stmt.wordsClearedAll rest)
termination_by structural body

theorem FunctionDecl.wordsCleared (decl : FunctionDecl) : decl.cleared.words = decl.words := by
  obtain ⟨name, params, body, line⟩ := decl
  exact congrArg (params.map Ident.name ++ ·) (Stmt.wordsClearedAll body)
termination_by structural decl

theorem FunctionDecl.wordsClearedAll (decls : List FunctionDecl) :
    FunctionDecl.wordsAll (FunctionDecl.clearedAll decls) = FunctionDecl.wordsAll decls := by
  cases decls with
  | nil => rfl
  | cons f rest => exact congrArg₂ (· ++ ·) f.wordsCleared (FunctionDecl.wordsClearedAll rest)
termination_by structural decls

theorem ClassDecl.wordsClearedSuperclass (superclass : Option Expr) :
    ClassDecl.wordsSuperclass (ClassDecl.clearedSuperclass superclass) = ClassDecl.wordsSuperclass superclass := by
  cases superclass with
  | none => rfl
  | some e => exact e.wordsCleared
termination_by structural superclass

theorem ClassDecl.wordsCleared (decl : ClassDecl) : decl.cleared.words = decl.words := by
  obtain ⟨name, superclass, methods, classMethods⟩ := decl
  exact congrArg (name.name :: ·) (congrArg₂ (· ++ ·) (ClassDecl.wordsClearedSuperclass superclass)
    (congrArg₂ (· ++ ·) (FunctionDecl.wordsClearedAll methods) (FunctionDecl.wordsClearedAll classMethods)))
termination_by structural decl

end

end Treewalk
