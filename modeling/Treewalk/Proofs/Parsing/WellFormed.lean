import Treewalk.Proofs.Places
import Treewalk.Proofs.Scanned
import Treewalk.Proofs.Identity

/-! Well-formed trees. Scope resolution and evaluation rely on forms that the types of trees do not enforce. Every tree
that the parser returns keeps to them in all its fragments, however deep: those of a loop that was rewritten, of an
assignment that was first read as an expression, and of a lambda whose body lost statements to recovered errors. -/
namespace Treewalk

/- What a tree consists of. Unlike the phrases of a walk over scopes, fragments presuppose no form: a function without a
name or a superclass that is no name is one too. -/
inductive Fragment where
  | program (body : Program)
  | stmt (s : Stmt)
  | expr (e : Expr)
  | function (decl : FunctionDecl)

namespace Fragment

def parts : Fragment → List Fragment
  | .program body => body.map .stmt
  | .stmt (.expression value) => [.expr value]
  | .stmt (.print value) => [.expr value]
  | .stmt (.varDecl _ initializer) => initializer.toList.map .expr
  | .stmt (.block body) => body.map .stmt
  | .stmt (.ifElse condition thenBranch elseBranch) =>
    .expr condition :: .stmt thenBranch :: elseBranch.toList.map .stmt
  | .stmt (.whileLoop condition body) => [.expr condition, .stmt body]
  | .stmt (.funDecl decl) => [.function decl]
  | .stmt (.classDecl decl) =>
    decl.superclass.toList.map .expr ++ (decl.methods ++ decl.classMethods).map .function
  | .stmt (.returnStmt _ value) => value.toList.map .expr
  | .expr (.lambda decl) => [.function decl]
  | .expr e => e.parts.map .expr
  | .function decl => decl.body.map .stmt

def listed : Fragment → List Stmt
  | .program body => body
  | .stmt (.block body) => body
  | .function decl => decl.body
  | _ => []

def names : Fragment → List Ident
  | .stmt (.varDecl name _) => [name]
  | .stmt (.classDecl decl) => [decl.name]
  | .expr (.var name _) => [name]
  | .expr (.assign name _ _) => [name]
  | .expr (.get _ name) => [name]
  | .expr (.set _ name _) => [name]
  | .function decl => decl.name.toList ++ decl.params
  | _ => []

def slots : Fragment → List Depth
  | .expr (.var _ depth) => [depth]
  | .expr (.assign _ _ depth) => [depth]
  | .expr (.this _ depth) => [depth]
  | _ => []

inductive Occurs (root : Fragment) : Fragment → Prop where
  | here : Occurs root root
  | part {f inner : Fragment} (whole : Occurs root f) (member : inner ∈ f.parts) : Occurs root inner

/- The forms, for a tree made of such tokens. A declaration stands in a list and nowhere else. That a name is never
`this` needs tokens that were scanned: no identifier of a text is spelled so. -/
structure WellFormed (tokens : List Token) (root : Fragment) : Prop where
  declarations : ∀ f s, root.Occurs f → .stmt s ∈ f.parts → s.isDeclaration = true → s ∈ f.listed
  branches : ∀ condition thenBranch elseBranch, root.Occurs (.stmt (.ifElse condition thenBranch elseBranch)) →
    ∀ s ∈ thenBranch :: elseBranch.toList, s.isDeclaration = false
  loops : ∀ condition body, root.Occurs (.stmt (.whileLoop condition body)) → body.isDeclaration = false
  superclasses : ∀ decl e, root.Occurs (.stmt (.classDecl decl)) → decl.superclass = some e →
    ∃ name depth, e = .var name depth
  functions : ∀ decl, root.Occurs (.stmt (.funDecl decl)) → decl.name ≠ none
  methods : ∀ decl, root.Occurs (.stmt (.classDecl decl)) →
    ∀ method ∈ decl.methods ++ decl.classMethods, method.name ≠ none
  lambdas : ∀ decl, root.Occurs (.expr (.lambda decl)) → decl.name = none
  parameters : ∀ decl, root.Occurs (.function decl) → decl.params.length ≤ 255
  arguments : ∀ callee arguments line, root.Occurs (.expr (.call callee arguments line)) → arguments.length ≤ 255
  names : ∀ f, root.Occurs f → ∀ name ∈ f.names, name.MadeOf tokens .identifier
  notThis : ∀ source, Source.tokens source = .ok tokens → ∀ f, root.Occurs f → ∀ name ∈ f.names, name.name ≠ "this"
  slots : ∀ f, root.Occurs f → ∀ depth ∈ f.slots, depth = none

def MadeOf (source : List Token) : Fragment → Prop
  | .program body => Stmt.MadeOfAll source body
  | .stmt s => s.MadeOf source
  | .expr e => e.MadeOf source
  | .function decl => decl.MadeOf source

end Fragment

section Parts
variable {source : List Token}

theorem FunctionDecl.madeOf {decl : FunctionDecl} : decl.MadeOf source ↔
    (∀ n, decl.name = some n → n.MadeOf source .identifier) ∧ decl.params.length ≤ maxArguments ∧
      (∀ n ∈ decl.params, n.MadeOf source .identifier) ∧ Stmt.MadeOfAll source decl.body := by
  obtain ⟨name, params, body, line⟩ := decl
  rfl

theorem ClassDecl.madeOf {decl : ClassDecl} : decl.MadeOf source ↔
    decl.name.MadeOf source .identifier ∧
      (∀ e, decl.superclass = some e → ∃ parent : Ident, e = .var parent none ∧ parent.MadeOf source .identifier) ∧
      FunctionDecl.MadeOfAll source decl.methods ∧ FunctionDecl.MadeOfAll source decl.classMethods := by
  obtain ⟨name, superclass, methods, classMethods⟩ := decl
  rfl

theorem ClassDecl.methodMade {decl : ClassDecl} (made : decl.MadeOf source) :
    ∀ method ∈ decl.methods ++ decl.classMethods, method.name ≠ none ∧ method.MadeOf source := by
  obtain ⟨_, _, own, shared⟩ := ClassDecl.madeOf.mp made
  intro method member
  rcases List.mem_append.mp member with first | second
  · exact FunctionDecl.madeOfAll.mp own method first
  · exact FunctionDecl.madeOfAll.mp shared method second

theorem Expr.optionMade {value : Option Expr} (made : Expr.MadeOfOption source value) :
    ∀ e ∈ value.toList, e.MadeOf source := by
  cases value with
  | none => exact List.forall_mem_nil _
  | some e => exact List.forall_mem_singleton.mpr made

theorem Stmt.branchMade {condition : Expr} {thenBranch : Stmt} {elseBranch : Option Stmt}
    (made : (Stmt.ifElse condition thenBranch elseBranch).MadeOf source) :
    ∀ s ∈ thenBranch :: elseBranch.toList, s.MadeOf source ∧ s.isDeclaration = false := by
  obtain ⟨_, first, second⟩ := made
  refine List.forall_mem_cons.mpr ⟨first, ?_⟩
  cases elseBranch with
  | none => exact List.forall_mem_nil _
  | some s => exact List.forall_mem_singleton.mpr second

theorem twoMembers {post : α → Prop} {first second : α} (one : post first) (other : post second) :
    ∀ x ∈ [first, second], post x :=
  List.forall_mem_cons.mpr ⟨one, List.forall_mem_singleton.mpr other⟩

theorem Expr.partMade {e : Expr} (made : e.MadeOf source) : ∀ inner ∈ e.parts, inner.MadeOf source := by
  cases e with
  | unary op right line => exact List.forall_mem_singleton.mpr made
  | binary left op right line => exact twoMembers made.1 made.2
  | logical left op right line => exact twoMembers made.1 made.2
  | ternary condition thenBranch elseBranch line =>
    exact List.forall_mem_cons.mpr ⟨made.1, twoMembers made.2.1 made.2.2⟩
  | grouping inner => exact List.forall_mem_singleton.mpr made
  | assign name value depth => exact List.forall_mem_singleton.mpr made.2.1
  | call callee arguments line => exact List.forall_mem_cons.mpr ⟨made.1, Expr.madeOfAll.mp made.2.2⟩
  | get object name => exact List.forall_mem_singleton.mpr made.1
  | set object name value => exact twoMembers made.1 made.2.2
  | _ => exact List.forall_mem_nil _

namespace Fragment

theorem partMade {f : Fragment} (made : f.MadeOf source) : ∀ inner ∈ f.parts, inner.MadeOf source := by
  cases f with
  | program body => exact List.forall_mem_map.mpr (Stmt.madeOfAll.mp made)
  | function decl => exact List.forall_mem_map.mpr (Stmt.madeOfAll.mp (FunctionDecl.madeOf.mp made).2.2.2)
  | expr e =>
    cases e with
    | lambda decl => exact List.forall_mem_singleton.mpr made.2
    | _ => exact List.forall_mem_map.mpr (Expr.partMade made)
  | stmt s =>
    cases s with
    | expression value => exact List.forall_mem_singleton.mpr made
    | print value => exact List.forall_mem_singleton.mpr made
    | varDecl name initializer => exact List.forall_mem_map.mpr (Expr.optionMade made.2)
    | block body => exact List.forall_mem_map.mpr (Stmt.madeOfAll.mp made)
    | ifElse condition thenBranch elseBranch =>
      have branches : ∀ s ∈ thenBranch :: elseBranch.toList, (Fragment.stmt s).MadeOf source :=
        fun s member => (Stmt.branchMade made s member).1
      exact List.forall_mem_cons.mpr ⟨made.1, List.forall_mem_map.mpr branches⟩
    | whileLoop condition body => exact twoMembers made.1 made.2.1
    | funDecl decl => exact List.forall_mem_singleton.mpr made.2
    | classDecl decl =>
      have parent : ∀ e ∈ decl.superclass.toList, e.MadeOf source := by
        intro e member
        obtain ⟨name, rfl, titled⟩ := (ClassDecl.madeOf.mp made).2.1 e (Option.mem_toList.mp member)
        exact ⟨titled, rfl⟩
      have members := fun method member => (ClassDecl.methodMade made method member).2
      exact List.forall_mem_append.mpr ⟨List.forall_mem_map.mpr parent, List.forall_mem_map.mpr members⟩
    | returnStmt keyword value => exact List.forall_mem_map.mpr (Expr.optionMade made)

theorem Occurs.made {root f : Fragment} (occurs : root.Occurs f) (made : root.MadeOf source) : f.MadeOf source := by
  -- on the way down from the root, one step to a part at a time
  induction occurs with
  | here => exact made
  | part _ member ih => exact partMade ih _ member

theorem listMember {body : List Stmt} {s : Stmt} (member : .stmt s ∈ body.map Fragment.stmt) : s ∈ body := by
  obtain ⟨_, listed, same⟩ := List.mem_map.mp member
  exact Fragment.stmt.inj same ▸ listed

theorem declarationListed {f : Fragment} (made : f.MadeOf source) {s : Stmt} (member : .stmt s ∈ f.parts)
    (declares : s.isDeclaration = true) : s ∈ f.listed := by
  cases f with
  | program body => exact listMember member
  | function decl => exact listMember member
  | expr e => cases e <;> simp [parts] at member
  | stmt whole =>
    cases whole with
    | block body => exact listMember member
    | ifElse condition thenBranch elseBranch =>
      have branch : s ∈ thenBranch :: elseBranch.toList := by simpa [parts] using member
      exact absurd ((Stmt.branchMade made s branch).2.symm.trans declares) Bool.false_ne_true
    | whileLoop condition body =>
      have same : s = body := by simpa [parts] using member
      exact absurd (made.2.2.symm.trans (same ▸ declares)) Bool.false_ne_true
    | _ => simp [parts] at member

theorem namesMade {f : Fragment} (made : f.MadeOf source) : ∀ name ∈ f.names, name.MadeOf source .identifier := by
  cases f with
  | program body => exact List.forall_mem_nil _
  | function decl =>
    obtain ⟨titled, _, named, _⟩ := FunctionDecl.madeOf.mp made
    exact List.forall_mem_append.mpr ⟨fun name member => titled name (Option.mem_toList.mp member), named⟩
  | expr e =>
    cases e with
    | var name depth => exact List.forall_mem_singleton.mpr made.1
    | assign name value depth => exact List.forall_mem_singleton.mpr made.1
    | get object name => exact List.forall_mem_singleton.mpr made.2
    | set object name value => exact List.forall_mem_singleton.mpr made.2.1
    | _ => exact List.forall_mem_nil _
  | stmt s =>
    cases s with
    | varDecl name initializer => exact List.forall_mem_singleton.mpr made.1
    | classDecl decl => exact List.forall_mem_singleton.mpr (ClassDecl.madeOf.mp made).1
    | _ => exact List.forall_mem_nil _

theorem slotsEmpty {f : Fragment} (made : f.MadeOf source) : ∀ depth ∈ f.slots, depth = none := by
  cases f with
  | expr e =>
    cases e with
    | var name depth => exact List.forall_mem_singleton.mpr made.2
    | assign name value depth => exact List.forall_mem_singleton.mpr made.2.2
    | this keyword depth => exact List.forall_mem_singleton.mpr made.2
    | _ => exact List.forall_mem_nil _
  | _ => exact List.forall_mem_nil _

theorem madeWellFormed {root : Fragment} (made : root.MadeOf source) : root.WellFormed source where
  declarations f s occurs member declares := declarationListed (occurs.made made) member declares
  branches condition thenBranch elseBranch occurs s member := (Stmt.branchMade (occurs.made made) s member).2
  loops condition body occurs := (occurs.made made).2.2
  superclasses decl e occurs parent := by
    obtain ⟨name, same, _⟩ := (ClassDecl.madeOf.mp (occurs.made made)).2.1 e parent
    exact ⟨name, none, same⟩
  functions decl occurs := (occurs.made made).1
  methods decl occurs method member := (ClassDecl.methodMade (occurs.made made) method member).1
  lambdas decl occurs := (occurs.made made).1
  parameters decl occurs := (FunctionDecl.madeOf.mp (occurs.made made)).2.1
  arguments callee arguments line occurs := (occurs.made made).2.1
  names f occurs := namesMade (occurs.made made)
  notThis text scanned f occurs name member :=
    madeNotThis (sourceTokens scanned).2 (namesMade (occurs.made made) name member)
  slots f occurs := slotsEmpty (occurs.made made)

end Fragment
end Parts

/- How a loop with such clauses is written: the `while` stands alone, or after the initializer in a block. Around the
body and the increment there is a block of just these two, and without an increment there is none. -/
structure ForClauses.Rewritten (clauses : ForClauses) (condition : Expr) (repeated s : Stmt) : Prop where
  bare : clauses.initializer = none → s = .whileLoop condition repeated
  initialized : ∀ first, clauses.initializer = some first → s = .block [first, .whileLoop condition repeated]
  single : clauses.increment = none → repeated = clauses.body ∧ clauses.body.isDeclaration = false
  pair : ∀ step, clauses.increment = some step → repeated = .block [clauses.body, .expression step] ∧
    ∀ inner ∈ [clauses.body, .expression step], inner.isDeclaration = false

theorem ForClauses.loopRewritten {clauses : ForClauses} (plain : clauses.body.isDeclaration = false) (line : Nat) :
    ∃ condition repeated, clauses.Rewritten condition repeated (clauses.loop line) := by
  obtain ⟨initializer, condition, increment, body⟩ := clauses
  refine ⟨condition.getD (.literal (.bool true) line), ?_⟩
  cases increment with
  | none =>
    refine ⟨body, fun absent => ?_, fun first present => ?_, fun _ => ⟨rfl, plain⟩, fun step other => ?_⟩
    · cases absent
      rfl
    · cases present
      rfl
    · cases other
  | some step =>
    refine ⟨.block [body, .expression step], fun absent => ?_, fun first present => ?_, fun other => ?_, fun _ same => ?_⟩
    · cases absent
      rfl
    · cases present
      rfl
    · cases other
    · cases same
      exact ⟨rfl, twoMembers plain rfl⟩

/- A `for` statement, wherever it is read: all that the parser reads are read by the rules of some depth. -/
theorem Phrases.forStatementRewrites {depth line : Nat} {c c' : Cursor} {s : Stmt}
    (ran : (upTo depth).forStatement line c = .ok s c') :
    ∃ clauses condition repeated, (upTo depth).forClauses c = .ok clauses c' ∧
      clauses.Rewritten condition repeated s := by
  rw [forStatementReads] at ran
  cases read : (upTo depth).forClauses c with
  | error e failed => cases (Parser.bindError read).symm.trans ran
  | ok clauses after =>
    cases (Parser.bindOk read).symm.trans ran
    have made := ((makesForClauses (buildsUpTo c.rest depth)).ok (List.Subset.refl _) read).2
    obtain ⟨condition, repeated, rewritten⟩ := ForClauses.loopRewritten made.body.2 line
    exact ⟨clauses, condition, repeated, rfl, rewritten⟩

/- Programs and single expressions. The last part is about the rewriting of `for`, which does not show in a tree: the
same block may have been written out. -/
theorem parsedTreesWellFormed (tokens : List Token) :
    (∀ ast, parseProgram tokens = .ok ast → (Fragment.program ast).WellFormed tokens) ∧
    (∀ e, parseExpression tokens = .ok e → (Fragment.expr e).WellFormed tokens) ∧
    ∀ depth line c s c', (Phrases.upTo depth).forStatement line c = .ok s c' →
      ∃ clauses condition repeated, (Phrases.upTo depth).forClauses c = .ok clauses c' ∧
        clauses.Rewritten condition repeated s := by
  refine ⟨fun ast parsed => ?_, fun e parsed => ?_, fun depth line c s c' ran => ?_⟩
  · exact Fragment.madeWellFormed (programMadeOf parsed)
  · exact Fragment.madeWellFormed (expressionMadeOf parsed)
  · exact Phrases.forStatementRewrites ran

/- `(var i = x; i; i = i.next) this.f(i);`, which stands after `for`. -/
def stepping : List Token :=
  [⟨.symbol .leftParen, "(", 1⟩, ⟨.keyword .kwVar, "var", 1⟩, ⟨.identifier, "i", 1⟩, ⟨.symbol .equal, "=", 1⟩,
    ⟨.identifier, "x", 1⟩, ⟨.symbol .semicolon, ";", 1⟩, ⟨.identifier, "i", 1⟩, ⟨.symbol .semicolon, ";", 1⟩,
    ⟨.identifier, "i", 1⟩, ⟨.symbol .equal, "=", 1⟩, ⟨.identifier, "i", 1⟩, ⟨.symbol .dot, ".", 1⟩,
    ⟨.identifier, "next", 1⟩, ⟨.symbol .rightParen, ")", 1⟩, ⟨.keyword .kwThis, "this", 1⟩, ⟨.symbol .dot, ".", 1⟩,
    ⟨.identifier, "f", 1⟩, ⟨.symbol .leftParen, "(", 1⟩, ⟨.identifier, "i", 1⟩, ⟨.symbol .rightParen, ")", 1⟩,
    ⟨.symbol .semicolon, ";", 1⟩]

def steppingTree : Stmt :=
  .block [.varDecl ⟨"i", 1⟩ (some (.var ⟨"x", 1⟩ none)),
    .whileLoop (.var ⟨"i", 1⟩ none)
      (.block [.expression (.call (.get (.this ⟨"this", 1⟩ none) ⟨"f", 1⟩) [.var ⟨"i", 1⟩ none] 1),
        .expression (.assign ⟨"i", 1⟩ (.get (.var ⟨"i", 1⟩ none) ⟨"next", 1⟩) none)])]

def offspringText : String := "class B < A \x7b m(x) \x7b for (var i = x; i; i = i.next) this.f(i); \x7d \x7d"

def offspringTokens : List Token :=
  [⟨.keyword .kwClass, "class", 1⟩, ⟨.identifier, "B", 1⟩, ⟨.symbol .less, "<", 1⟩, ⟨.identifier, "A", 1⟩,
    ⟨.symbol .leftBrace, "\x7b", 1⟩, ⟨.identifier, "m", 1⟩, ⟨.symbol .leftParen, "(", 1⟩, ⟨.identifier, "x", 1⟩,
    ⟨.symbol .rightParen, ")", 1⟩, ⟨.symbol .leftBrace, "\x7b", 1⟩, ⟨.keyword .kwFor, "for", 1⟩] ++ stepping ++
  [⟨.symbol .rightBrace, "\x7d", 1⟩, ⟨.symbol .rightBrace, "\x7d", 1⟩, ⟨.eof, "", 1⟩]

def offspringTree : Program :=
  [.classDecl ⟨⟨"B", 1⟩, some (.var ⟨"A", 1⟩ none), [⟨some ⟨"m", 1⟩, [⟨"x", 1⟩], [steppingTree], 1⟩], []⟩]

/- `fun (x) { ; for (var i = x; i; i = i.next) this.f(i); }`, where the lone semicolon is recovered from. -/
def mendedTokens : List Token :=
  [⟨.keyword .kwFun, "fun", 1⟩, ⟨.symbol .leftParen, "(", 1⟩, ⟨.identifier, "x", 1⟩, ⟨.symbol .rightParen, ")", 1⟩,
    ⟨.symbol .leftBrace, "\x7b", 1⟩, ⟨.symbol .semicolon, ";", 1⟩, ⟨.keyword .kwFor, "for", 1⟩] ++ stepping ++
  [⟨.symbol .rightBrace, "\x7d", 1⟩, ⟨.eof, "", 1⟩]

def mendedTree : Expr := .lambda ⟨none, [⟨"x", 1⟩], [steppingTree], 1⟩

theorem offspringScanned : Source.tokens offspringText = .ok offspringTokens := readAs (by decide +kernel)

theorem offspringParsed : parseProgram offspringTokens = .ok offspringTree := readAs (by decide +kernel)

theorem mendedParsed : parseExpression mendedTokens = .ok mendedTree := readAs (by decide +kernel)

theorem steppingTreesWellFormed :
    Source.tokens offspringText = .ok offspringTokens ∧ parseProgram offspringTokens = .ok offspringTree ∧
    (Fragment.program offspringTree).WellFormed offspringTokens ∧
    parseExpression mendedTokens = .ok mendedTree ∧ (Fragment.expr mendedTree).WellFormed mendedTokens ∧
    (Phrases.upTo 9).forStatement 1 ⟨stepping, []⟩ = .ok steppingTree ⟨[], []⟩ ∧
    ∃ clauses condition repeated, (Phrases.upTo 9).forClauses ⟨stepping, []⟩ = .ok clauses ⟨[], []⟩ ∧
      clauses.Rewritten condition repeated steppingTree := by
  have program := (parsedTreesWellFormed offspringTokens).1 offspringTree offspringParsed
  have expression := (parsedTreesWellFormed mendedTokens).2.1 mendedTree mendedParsed
  have ran : (Phrases.upTo 9).forStatement 1 ⟨stepping, []⟩ = .ok steppingTree ⟨[], []⟩ :=
    completedAs (by decide +kernel)
  have loop := (parsedTreesWellFormed stepping).2.2 9 1 _ _ _ ran
  exact ⟨offspringScanned, offspringParsed, program, mendedParsed, expression, ran, loop⟩

end Treewalk
