import Treewalk.Syntax
import Treewalk.Text.Number

/-! Expressions as text: operators first, every composite in brackets. -/
namespace Treewalk

def Literal.text : Literal → String
  | .number value => Number.text .tree value
  | .string contents => contents
  | .bool true => "true"
  | .bool false => "false"
  | .nil => "nil"

mutual

def Expr.text : Expr → String
  | .literal value _ => value.text
  | .unary op right _ => "(" ++ op.text ++ " " ++ right.text ++ ")"
  | .binary left op right _ => "(" ++ op.text ++ " " ++ left.text ++ " " ++ right.text ++ ")"
  | .logical left op right _ => "(" ++ op.text ++ " " ++ left.text ++ " " ++ right.text ++ ")"
  | .ternary condition thenBranch elseBranch _ =>
    "(?: " ++ condition.text ++ " " ++ thenBranch.text ++ " " ++ elseBranch.text ++ ")"
  | .grouping inner => "(group " ++ inner.text ++ ")"
  | .var name _ => name.name
  | .assign name value _ => "(= " ++ name.name ++ " " ++ value.text ++ ")"
  | .call callee arguments _ => "(call " ++ callee.text ++ Expr.argumentsText arguments ++ ")"
  | .get object name => "(. " ++ object.text ++ " " ++ name.name ++ ")"
  | .set object name value => "(= (. " ++ object.text ++ " " ++ name.name ++ ") " ++ value.text ++ ")"
  | .this _ _ => "this"
  | .lambda decl => "(fun (" ++ " ".intercalate (decl.params.map Ident.name) ++ ") ...)"

def Expr.argumentsText : List Expr → String
  | [] => ""
  | e :: rest => " " ++ e.text ++ Expr.argumentsText rest

end
end Treewalk
