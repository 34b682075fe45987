import Treewalk.Token.Scan
import Treewalk.Syntax.Parse
import Treewalk.Scope

/-! From source text to syntax trees. A text with lexical errors is never parsed. -/
namespace Treewalk.Source

def tokens (source : String) : Except (List Diagnostic) (List Token) :=
  let items := scan source
  match items.filterMap Item.error? with
  | [] => .ok (items.filterMap Item.token?)
  | errors => .error (errors.map .lexical)

def program (source : String) : Except (List Diagnostic) Program := do
  let ts ← tokens source
  match parseProgram ts with
  | .ok p => .ok p
  | .error errors => .error (errors.map .syntactic)

def expression (source : String) : Except (List Diagnostic) Expr := do
  let ts ← tokens source
  match parseExpression ts with
  | .ok e => .ok e
  | .error error => .error [.syntactic error]

def resolvedExpression (source : String) : Except (List Diagnostic) Expr := do
  match (← expression source).resolveAlone with
  | (resolved, []) => .ok resolved
  | (_, errors) => .error (errors.map .scope)

end Treewalk.Source
