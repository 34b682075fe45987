import Treewalk.Proofs.Scoping
import Treewalk.Proofs.Parsing.Trees

/-! Trees as the grammar makes them. Slots are empty, no name that is used or declared is `this`, the branches of a
choice and the body of a loop declare nothing, functions that are declared have names, and a superclass is a name. -/
namespace Treewalk

mutual

def Expr.Proper : Expr → Prop
  | .literal _ _ => True
  | .unary _ right _ => right.Proper
  | .binary left _ right _ => left.Proper ∧ right.Proper
  | .logical left _ right _ => left.Proper ∧ right.Proper
  | .ternary condition thenBranch elseBranch _ => condition.Proper ∧ thenBranch.Proper ∧ elseBranch.Proper
  | .grouping inner => inner.Proper
  | .var name depth => name.name ≠ "this" ∧ depth = none
  | .assign name value depth => name.name ≠ "this" ∧ depth = none ∧ value.Proper
  | .call callee arguments _ => callee.Proper ∧ Expr.ProperAll arguments
  | .get object _ => object.Proper
  | .set object _ value => object.Proper ∧ value.Proper
  | .this keyword depth => keyword.name = "this" ∧ depth = none
  | .lambda decl => decl.Proper

def Expr.ProperAll : List Expr → Prop
  | [] => True
  | e :: rest => e.Proper ∧ Expr.ProperAll rest

def Stmt.Proper : Stmt → Prop
  | .expression value => value.Proper
  | .print value => value.Proper
  | .varDecl name none => name.name ≠ "this"
  | .varDecl name (some initializer) => name.name ≠ "this" ∧ initializer.Proper
  | .block body => Stmt.ProperAll body
  | .ifElse condition thenBranch none => condition.Proper ∧ thenBranch.Proper ∧ thenBranch.declares = []
  | .ifElse condition thenBranch (some elseBranch) =>
    condition.Proper ∧ thenBranch.Proper ∧ thenBranch.declares = [] ∧ elseBranch.Proper ∧ elseBranch.declares = []
  | .whileLoop condition body => condition.Proper ∧ body.Proper ∧ body.declares = []
  | .funDecl decl => decl.name ≠ none ∧ decl.Proper
  | .classDecl decl => decl.Proper
  | .returnStmt _ none => True
  | .returnStmt _ (some value) => value.Proper

def Stmt.ProperAll : List Stmt → Prop
  | [] => True
  | s :: rest => s.Proper ∧ Stmt.ProperAll rest

def FunctionDecl.Proper : FunctionDecl → Prop
  | ⟨name, params, body, _⟩ => (∀ ident ∈ name.toList ++ params, ident.name ≠ "this") ∧ Stmt.ProperAll body

def FunctionDecl.ProperAll : List FunctionDecl → Prop
  | [] => True
  | f :: rest => f.Proper ∧ FunctionDecl.ProperAll rest

def ClassDecl.Proper : ClassDecl → Prop
  | ⟨name, superclass, methods, classMethods⟩ =>
    (∀ e, superclass = some e → ∃ name, e = .var name none ∧ name.name ≠ "this") ∧
    (FunctionDecl.ProperAll methods ∧ FunctionDecl.ProperAll classMethods) ∧ name.name ≠ "this"

end

structure Token.Spelled (t : Token) : Prop where
  name : t.kind = .identifier → t.lexeme ≠ "this"
  keyword : t.kind = .keyword .kwThis → t.lexeme = "this"

def Spelled (tokens : List Token) : Prop := ∀ t ∈ tokens, t.Spelled

theorem spelledCons {t : Token} {rest : List Token} : Spelled (t :: rest) ↔ t.Spelled ∧ Spelled rest :=
  List.forall_mem_cons

section Names
variable {source : List Token} (spelled : Spelled source)
include spelled

theorem madeNotThis {name : Ident} (made : name.MadeOf source .identifier) : name.name ≠ "this" := by
  obtain ⟨t, member, kind, rfl⟩ := made
  exact (spelled t member).name kind

theorem madeThis {keyword : Ident} (made : keyword.MadeOf source (.keyword .kwThis)) : keyword.name = "this" := by
  obtain ⟨t, member, kind, rfl⟩ := made
  exact (spelled t member).keyword kind

end Names

theorem madeDeclares {source : List Token} : ∀ {s : Stmt}, s.MadeOf source → s.isDeclaration = false → s.declares = []
  | .expression _, _, _ => rfl
  | .print _, _, _ => rfl
  | .varDecl _ _, _, other => by cases other
  | .block _, _, _ => rfl
  | .ifElse _ thenBranch none, ⟨_, ⟨first, plain⟩, _⟩, _ => madeDeclares (s := thenBranch) first plain
  | .ifElse _ _ (some _), ⟨_, ⟨first, plain⟩, second, plain'⟩, _ => by
    rw [Stmt.declares, madeDeclares first plain, madeDeclares second plain', List.append_nil]
  | .whileLoop _ body, ⟨_, made, plain⟩, _ => madeDeclares (s := body) made plain
  | .funDecl _, _, other => by cases other
  | .classDecl _, _, other => by cases other
  | .returnStmt _ _, _, _ => rfl

mutual

theorem Expr.madeProper {source : List Token} (spelled : Spelled source) : ∀ {e : Expr}, e.MadeOf source → e.Proper
  | .literal _ _, _ => trivial
  | .unary _ right _, made => Expr.madeProper spelled (e := right) made
  | .binary _ _ _ _, made => ⟨Expr.madeProper spelled made.1, Expr.madeProper spelled made.2⟩
  | .logical _ _ _ _, made => ⟨Expr.madeProper spelled made.1, Expr.madeProper spelled made.2⟩
  | .ternary _ _ _ _, made =>
    ⟨Expr.madeProper spelled made.1, Expr.madeProper spelled made.2.1, Expr.madeProper spelled made.2.2⟩
  | .grouping inner, made => Expr.madeProper spelled (e := inner) made
  | .var _ _, made => ⟨madeNotThis spelled made.1, made.2⟩
  | .assign _ _ _, made => ⟨madeNotThis spelled made.1, made.2.2, Expr.madeProper spelled made.2.1⟩
  | .call _ _ _, made => ⟨Expr.madeProper spelled made.1, Expr.madeProperAll spelled made.2.2⟩
  | .get object _, made => Expr.madeProper spelled (e := object) made.1
  | .set _ _ _, made => ⟨Expr.madeProper spelled made.1, Expr.madeProper spelled made.2.2⟩
  | .this _ _, made => ⟨madeThis spelled made.1, made.2⟩
  | .lambda decl, made => (FunctionDecl.madeProper spelled made.2 : decl.Proper)

theorem Expr.madeProperAll {source : List Token} (spelled : Spelled source) :
    ∀ {es : List Expr}, Expr.MadeOfAll source es → Expr.ProperAll es
  | [], _ => trivial
  | _ :: _, made => ⟨Expr.madeProper spelled made.1, Expr.madeProperAll spelled made.2⟩

theorem Stmt.madeProper {source : List Token} (spelled : Spelled source) : ∀ {s : Stmt}, s.MadeOf source → s.Proper
  | .expression value, made => Expr.madeProper spelled (e := value) made
  | .print value, made => Expr.madeProper spelled (e := value) made
  | .varDecl _ none, made => madeNotThis spelled made.1
  | .varDecl _ (some initializer), made =>
    ⟨madeNotThis spelled made.1, Expr.madeProper spelled (e := initializer) made.2⟩
  | .block _, made => Stmt.madeProperAll spelled made
  | .ifElse _ _ none, ⟨test, ⟨first, plain⟩, _⟩ =>
    ⟨Expr.madeProper spelled test, Stmt.madeProper spelled first, madeDeclares first plain⟩
  | .ifElse _ _ (some _), ⟨test, ⟨first, plain⟩, second, plain'⟩ =>
    ⟨Expr.madeProper spelled test, Stmt.madeProper spelled first, madeDeclares first plain,
      Stmt.madeProper spelled second, madeDeclares second plain'⟩
  | .whileLoop _ _, ⟨test, body, plain⟩ =>
    ⟨Expr.madeProper spelled test, Stmt.madeProper spelled body, madeDeclares body plain⟩
  | .funDecl _, made => ⟨made.1, FunctionDecl.madeProper spelled made.2⟩
  | .classDecl decl, made => (ClassDecl.madeProper spelled made : decl.Proper)
  | .returnStmt _ none, _ => trivial
  | .returnStmt _ (some value), made => Expr.madeProper spelled (e := value) made

theorem Stmt.madeProperAll {source : List Token} (spelled : Spelled source) :
    ∀ {ss : List Stmt}, Stmt.MadeOfAll source ss → Stmt.ProperAll ss
  | [], _ => trivial
  | _ :: _, made => ⟨Stmt.madeProper spelled made.1, Stmt.madeProperAll spelled made.2⟩

theorem FunctionDecl.madeProper {source : List Token} (spelled : Spelled source) :
    ∀ {decl : FunctionDecl}, decl.MadeOf source → decl.Proper
  | ⟨name, params, body, _⟩, ⟨titled, _, named, made⟩ => by
    refine ⟨fun n member => ?_, Stmt.madeProperAll spelled made⟩
    rcases List.mem_append.mp member with title | parameter
    · exact madeNotThis spelled (titled n (Option.mem_toList.mp title))
    · exact madeNotThis spelled (named n parameter)

theorem FunctionDecl.madeProperAll {source : List Token} (spelled : Spelled source) :
    ∀ {decls : List FunctionDecl}, FunctionDecl.MadeOfAll source decls → FunctionDecl.ProperAll decls
  | [], _ => trivial
  | _ :: _, made => ⟨FunctionDecl.madeProper spelled made.1.2, FunctionDecl.madeProperAll spelled made.2⟩

theorem ClassDecl.madeProper {source : List Token} (spelled : Spelled source) :
    ∀ {decl : ClassDecl}, decl.MadeOf source → decl.Proper
  | ⟨name, superclass, methods, classMethods⟩, ⟨titled, known, own, shared⟩ => by
    refine ⟨fun e same => ?_, ⟨FunctionDecl.madeProperAll spelled own, FunctionDecl.madeProperAll spelled shared⟩,
      madeNotThis spelled titled⟩
    obtain ⟨parent, isName, made⟩ := known e same
    exact ⟨parent, isName, madeNotThis spelled made⟩

end

end Treewalk
