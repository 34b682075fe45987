import Treewalk.Syntax
import Treewalk.Json
import Treewalk.Text.Number

/-! Syntax trees as JSON documents. Every node is tagged with its kind; how a number literal is held is left
to the reader of the document. -/
namespace Treewalk

def Ident.json (i : Ident) : Json := .object [("name", .string i.name), ("line", .natural i.line)]

def UnaryOp.json : UnaryOp → Json
  | .negate => .string "Negate"
  | .not => .string "Not"

def BinaryOp.json : BinaryOp → Json
  | .add => .string "Add"
  | .subtract => .string "Subtract"
  | .multiply => .string "Multiply"
  | .divide => .string "Divide"
  | .equal => .string "Equal"
  | .notEqual => .string "NotEqual"
  | .less => .string "Less"
  | .lessEqual => .string "LessEqual"
  | .greater => .string "Greater"
  | .greaterEqual => .string "GreaterEqual"

def LogicalOp.json : LogicalOp → Json
  | .and => .string "And"
  | .or => .string "Or"

def Literal.json (number : Float → Json) : Literal → Json
  | .number value => .tagged "Number" (number value)
  | .string contents => .tagged "Str" (.string contents)
  | .bool true => .string "True"
  | .bool false => .string "False"
  | .nil => .string "Nil"

mutual

def Expr.json (number : Float → Json) : Expr → Json
  | .literal value line =>
    .tagged "Literal" (.object [("value", value.json number), ("line", .natural line)])
  | .unary op right line =>
    .tagged "Unary" (.object
      [("operator", op.json), ("right", right.json number), ("line", .natural line)])
  | .binary left op right line =>
    .tagged "Binary" (.object
      [("left", left.json number), ("operator", op.json), ("right", right.json number),
        ("line", .natural line)])
  | .logical left op right line =>
    .tagged "Logical" (.object
      [("left", left.json number), ("operator", op.json), ("right", right.json number),
        ("line", .natural line)])
  | .ternary condition thenBranch elseBranch line =>
    .tagged "Ternary" (.object
      [("condition", condition.json number), ("then_branch", thenBranch.json number),
        ("else_branch", elseBranch.json number), ("line", .natural line)])
  | .grouping inner => .tagged "Grouping" (inner.json number)
  | .var name depth => .tagged "Variable" (.object [("name", name.json), ("depth", .ofNat? depth)])
  | .assign name value depth =>
    .tagged "Assign" (.object
      [("name", name.json), ("value", value.json number), ("depth", .ofNat? depth)])
  | .call callee arguments line =>
    .tagged "Call" (.object
      [("callee", callee.json number), ("arguments", .list (Expr.jsonList number arguments)),
        ("line", .natural line)])
  | .get object name => .tagged "Get" (.object [("object", object.json number), ("name", name.json)])
  | .set object name value =>
    .tagged "Set" (.object
      [("object", object.json number), ("name", name.json), ("value", value.json number)])
  | .this keyword depth =>
    .tagged "This" (.object [("keyword", keyword.json), ("depth", .ofNat? depth)])
  | .lambda decl => .tagged "Lambda" (decl.json number)

def Expr.jsonList (number : Float → Json) : List Expr → List Json
  | [] => []
  | e :: rest => e.json number :: Expr.jsonList number rest

def Expr.jsonOption (number : Float → Json) : Option Expr → Json
  | some e => e.json number
  | none => .null

def Stmt.json (number : Float → Json) : Stmt → Json
  | .expression value => .tagged "Expression" (value.json number)
  | .print value => .tagged "Print" (value.json number)
  | .varDecl name initializer =>
    .tagged "Var" (.object
      [("name", name.json), ("initializer", Expr.jsonOption number initializer)])
  | .block body => .tagged "Block" (.list (Stmt.jsonList number body))
  | .ifElse condition thenBranch elseBranch =>
    .tagged "If" (.object
      [("condition", condition.json number), ("then_branch", thenBranch.json number),
        ("else_branch", Stmt.jsonOption number elseBranch)])
  | .whileLoop condition body =>
    .tagged "While" (.object [("condition", condition.json number), ("body", body.json number)])
  | .funDecl decl => .tagged "Function" (decl.json number)
  | .classDecl decl => .tagged "Class" (decl.json number)
  | .returnStmt keyword value =>
    .tagged "Return" (.object [("keyword", keyword.json), ("value", Expr.jsonOption number value)])

def Stmt.jsonList (number : Float → Json) : List Stmt → List Json
  | [] => []
  | s :: rest => s.json number :: Stmt.jsonList number rest

def Stmt.jsonOption (number : Float → Json) : Option Stmt → Json
  | some s => s.json number
  | none => .null

def FunctionDecl.json (number : Float → Json) : FunctionDecl → Json
  | ⟨name, params, body, line⟩ =>
    .object
      [("name", match name with
          | some name => name.json
          | none => .null),
        ("params", .list (params.map Ident.json)), ("body", .list (Stmt.jsonList number body)),
        ("line", .natural line)]

def FunctionDecl.jsonList (number : Float → Json) : List FunctionDecl → List Json
  | [] => []
  | f :: rest => f.json number :: FunctionDecl.jsonList number rest

def ClassDecl.json (number : Float → Json) : ClassDecl → Json
  | ⟨name, superclass, methods, classMethods⟩ =>
    .object
      [("name", name.json), ("superclass", Expr.jsonOption number superclass),
        ("methods", .list (FunctionDecl.jsonList number methods)),
        ("class_methods", .list (FunctionDecl.jsonList number classMethods))]

end

def Json.ofNumber (value : Float) : Json :=
  match Number.jsonText? value with
  | some text => .decimal text
  | none => .null

def Program.pretty (program : Program) : String :=
  (Json.list (Stmt.jsonList Json.ofNumber program)).pretty 0

end Treewalk
