import Mathlib.Data.Set.Function
import Treewalk.Syntax.Text
import Treewalk.Proofs.Forms
import Treewalk.Proofs.Identity
import Treewalk.Proofs.Lines
import Treewalk.Proofs.Renaming
import Treewalk.Proofs.Numerals.Literals
import Treewalk.Proofs.Parsing.Trees
import Treewalk.Proofs.Words.Spread

/-! The text of an expression says what the expression is. The text is a form, and from the form the expression is read
back, all but its lines and slots; a property is read before it is known to be assigned to, as in parsing. Names are
told from numbers by their first character, and numbers by their digits. Strings are printed without quotes and lambdas
without their bodies, so expressions with these are left out, as are numbers too large to be finite. -/
namespace Treewalk

mutual

@[simp]
def Expr.form : Expr → Form
  | .literal value _ => .leaf value.text
  | .unary op right _ => .node op.text [right.form]
  | .binary left op right _ => .node op.text [left.form, right.form]
  | .logical left op right _ => .node op.text [left.form, right.form]
  | .ternary condition thenBranch elseBranch _ => .node "?:" [condition.form, thenBranch.form, elseBranch.form]
  | .grouping inner => .node "group" [inner.form]
  | .var name _ => .leaf name.name
  | .assign name value _ => .node "=" [.leaf name.name, value.form]
  | .call callee arguments _ => .node "call" (callee.form :: Expr.forms arguments)
  | .get object name => .node "." [object.form, .leaf name.name]
  | .set object name value => .node "=" [.node "." [object.form, .leaf name.name], value.form]
  | .this _ _ => .leaf "this"
  | .lambda decl => .leaf (Expr.lambda decl).text

def Expr.forms : List Expr → List Form
  | [] => []
  | e :: rest => e.form :: Expr.forms rest

end

mutual

theorem Expr.formText : ∀ e : Expr, e.form.text = e.text
  | .literal value _ => rfl
  | .unary op right _ => by simp [← String.toList_inj, Expr.text, right.formText]
  | .binary left op right _ => by
    simp [← String.toList_inj, Expr.text, left.formText, right.formText]
  | .logical left op right _ => by
    simp [← String.toList_inj, Expr.text, left.formText, right.formText]
  | .ternary condition thenBranch elseBranch _ => by
    simp [← String.toList_inj, Expr.text, condition.formText, thenBranch.formText, elseBranch.formText]
  | .grouping inner => by simp [← String.toList_inj, Expr.text, inner.formText]
  | .var name _ => rfl
  | .assign name value _ => by simp [← String.toList_inj, Expr.text, value.formText]
  | .call callee arguments _ => by
    simp [← String.toList_inj, Expr.text, callee.formText, Expr.formsText arguments]
  | .get object name => by simp [← String.toList_inj, Expr.text, object.formText]
  | .set object name value => by
    simp [← String.toList_inj, Expr.text, object.formText, value.formText]
  | .this _ _ => rfl
  | .lambda decl => rfl

theorem Expr.formsText : ∀ es : List Expr, Form.operandsText (Expr.forms es) = Expr.argumentsText es
  | [] => rfl
  | e :: rest => by rw [Expr.forms, Form.operandsText, Expr.argumentsText, e.formText, Expr.formsText rest]

end

def Expr.bare (e : Expr) : Expr := (e.mapLines fun _ => 0).cleared

def UnaryOp.ofText? : String → Option UnaryOp
  | "-" => some .negate
  | "!" => some .not
  | _ => none

def binaryOf? (left right : Expr) : String → Option Expr
  | "+" => some (.binary left .add right 0)
  | "-" => some (.binary left .subtract right 0)
  | "*" => some (.binary left .multiply right 0)
  | "/" => some (.binary left .divide right 0)
  | "==" => some (.binary left .equal right 0)
  | "!=" => some (.binary left .notEqual right 0)
  | "<" => some (.binary left .less right 0)
  | "<=" => some (.binary left .lessEqual right 0)
  | ">" => some (.binary left .greater right 0)
  | ">=" => some (.binary left .greaterEqual right 0)
  | "and" => some (.logical left .and right 0)
  | "or" => some (.logical left .or right 0)
  | _ => none

/- As the parser does it: what is assigned to was read as an expression. -/
def assignmentOf? (value : Expr) : Expr → Option Expr
  | .var name _ => some (.assign name value none)
  | .get object name => some (.set object name value)
  | _ => none

def propertyOf? (object : Expr) : Expr → Option Expr
  | .var name _ => some (.get object name)
  | _ => none

def operationOf? (head : String) : List Expr → Option Expr
  | [only] =>
    if head = "group" then some (.grouping only) else (UnaryOp.ofText? head).map fun op => .unary op only 0
  | [left, right] =>
    if head = "=" then assignmentOf? right left
    else if head = "." then propertyOf? left right
    else binaryOf? left right head
  | [condition, thenBranch, elseBranch] =>
    if head = "?:" then some (.ternary condition thenBranch elseBranch 0) else none
  | _ => none

def nodeOf? (head : String) (operands : List Expr) : Option Expr :=
  if head = "call" then operands.head?.map fun callee => .call callee operands.tail 0
  else operationOf? head operands

/- A leaf that starts with a digit is a number; what number that is, is for `number` to say. -/
def leafOf (number : String → Float) (text : String) : Expr :=
  if text = "true" then .literal (.bool true) 0
  else if text = "false" then .literal (.bool false) 0
  else if text = "nil" then .literal .nil 0
  else if text = "this" then .this ⟨"this", 0⟩ none
  else if text.toList.head?.any Char.isDigit then .literal (.number (number text)) 0
  else .var ⟨text, 0⟩ none

mutual

def Form.read (number : String → Float) : Form → Option Expr
  | .leaf text => some (leafOf number text)
  | .node head operands => (Form.readAll number operands).bind (nodeOf? head)

def Form.readAll (number : String → Float) : List Form → Option (List Expr)
  | [] => some []
  | f :: rest => (f.read number).bind fun e => (Form.readAll number rest).map fun es => e :: es

end

/- A form that is cut off any text as it stands, and that is read as an expression. -/
def Form.Means (number : String → Float) (f : Form) (e : Expr) : Prop := f.Solid ∧ f.read number = some e

def Form.MeanAll (number : String → Float) (fs : List Form) (es : List Expr) : Prop :=
  Form.SolidAll fs ∧ Form.readAll number fs = some es

section Meaning
variable {number : String → Float}

theorem meanNil : Form.MeanAll number [] [] := ⟨trivial, rfl⟩

theorem meanCons {f : Form} {fs : List Form} {e : Expr} {es : List Expr} (first : f.Means number e)
    (rest : Form.MeanAll number fs es) : Form.MeanAll number (f :: fs) (e :: es) :=
  ⟨⟨first.1, rest.1⟩, by simp [Form.readAll, first.2, rest.2]⟩

theorem meanTwo {f g : Form} {e e' : Expr} (first : f.Means number e) (second : g.Means number e') :
    Form.MeanAll number [f, g] [e, e'] := meanCons first (meanCons second meanNil)

theorem nodeMeans {head : String} {fs : List Form} {es : List Expr} {e : Expr} (undivided : Undivided head.toList)
    (operands : Form.MeanAll number fs es) (made : nodeOf? head es = some e) : (Form.node head fs).Means number e :=
  ⟨⟨undivided, operands.1⟩, by simp [Form.read, operands.2, made]⟩

end Meaning

def Literal.Plain : Literal → Prop
  | .number value => Number.magnitude value ≠ .infinite
  | .string _ => False
  | .bool _ => True
  | .nil => True

mutual

/- No strings, no lambdas, and no number too large to be one. -/
def Expr.Plain : Expr → Prop
  | .literal value _ => value.Plain
  | .unary _ right _ => right.Plain
  | .binary left _ right _ => left.Plain ∧ right.Plain
  | .logical left _ right _ => left.Plain ∧ right.Plain
  | .ternary condition thenBranch elseBranch _ => condition.Plain ∧ thenBranch.Plain ∧ elseBranch.Plain
  | .grouping inner => inner.Plain
  | .var _ _ => True
  | .assign _ value _ => value.Plain
  | .call callee arguments _ => callee.Plain ∧ Expr.PlainAll arguments
  | .get object _ => object.Plain
  | .set object _ value => object.Plain ∧ value.Plain
  | .this _ _ => True
  | .lambda _ => False

def Expr.PlainAll : List Expr → Prop
  | [] => True
  | e :: rest => e.Plain ∧ Expr.PlainAll rest

end

theorem nameUndivided {name : List Char} (shape : NameShaped name) : Undivided name := by
  intro c member divider
  have part := partExact.mp (shape.all c member)
  rcases divider with rfl | rfl | rfl <;> exact absurd (partExact.mpr part) (by decide)

theorem numeralUndivided {cs : List Char} (numeral : Numeral cs) : Undivided cs := by
  intro c member divider
  rcases numeral.2 c member with digit | rfl
  · rcases divider with rfl | rfl | rfl <;> exact absurd (digitExact.mpr digit) (by decide)
  · revert divider
    decide

section Leaves
variable {number : String → Float}

theorem leafOther {text : String} (free : ∀ k : Keyword, k.text ≠ text) : leafOf number text =
    if text.toList.head?.any Char.isDigit then .literal (.number (number text)) 0 else .var ⟨text, 0⟩ none := by
  have truth : text ≠ "true" := (free .kwTrue).symm
  have falsehood : text ≠ "false" := (free .kwFalse).symm
  have nothing : text ≠ "nil" := (free .kwNil).symm
  have receiver : text ≠ "this" := (free .kwThis).symm
  rw [leafOf, if_neg truth, if_neg falsehood, if_neg nothing, if_neg receiver]

theorem leafName {name : String} (shape : NameShaped name.toList) (free : ∀ k : Keyword, k.text ≠ name) :
    leafOf number name = .var ⟨name, 0⟩ none := by
  obtain ⟨c, cs, same, letter⟩ := shape.first
  have noDigit : ¬ c.isDigit = true := mt digitExact.mp letter.notDigit
  rw [leafOther free, same]
  exact if_neg noDigit

theorem leafNumber {text : String} (numeral : Numeral text.toList) :
    leafOf number text = .literal (.number (number text)) 0 := by
  obtain ⟨c, cs, same, digit⟩ := numeral.1
  have free : ∀ k : Keyword, k.text ≠ text := by
    rintro k rfl
    obtain ⟨d, ds, spelled, letter⟩ := (keywordShaped k).first
    rw [same] at spelled
    exact letter.notDigit ((List.cons.inj spelled).1 ▸ digit)
  rw [leafOther free, same]
  exact if_pos (digitExact.mpr digit)

end Leaves

def Worded (source : List Token) : Prop := ∀ t ∈ source, t.kind ≠ .eof → Word t.lexeme.toList t.kind

section Worded
variable {number : String → Float} {source : List Token} (worded : Worded source)
include worded

theorem identWorded {name : Ident} (made : name.MadeOf source .identifier) :
    NameShaped name.name.toList ∧ ∀ k : Keyword, k.text ≠ name.name := by
  obtain ⟨t, member, kind, rfl⟩ := made
  have word := worded t member (by simp [kind])
  rw [kind] at word
  generalize same : t.lexeme.toList = lexeme at word
  cases word with
  | identifier shape free => exact ⟨same ▸ shape, fun k spelled => free k (by rw [spelled, same])⟩

theorem nameMeans {name : Ident} (made : name.MadeOf source .identifier) :
    (Form.leaf name.name).Means number (.var ⟨name.name, 0⟩ none) := by
  obtain ⟨shape, free⟩ := identWorded worded made
  exact ⟨nameUndivided shape, congrArg some (leafName shape free)⟩

theorem thisWorded {keyword : Ident} (made : keyword.MadeOf source (.keyword .kwThis)) : keyword.name = "this" := by
  obtain ⟨t, member, kind, rfl⟩ := made
  have word := worded t member (by simp [kind])
  rw [kind] at word
  generalize same : t.lexeme.toList = lexeme at word
  cases word with
  | keyword => exact String.toList_inj.mp same

theorem numberWorded {value : Float} (made : (Literal.number value).MadeOf source)
    (plain : (Literal.number value).Plain) : Number.Counted value := by
  obtain ⟨t, member, kind⟩ := made
  have word := worded t member (by simp [kind])
  rw [kind] at word
  generalize t.lexeme.toList = lexeme at word
  cases word with
  | whole => exact Number.ofDigitsCounted plain
  | decimal => exact Number.ofDigitsCounted plain

theorem propertyMeans {object : Form} {e : Expr} (means : object.Means number e) {name : Ident}
    (made : name.MadeOf source .identifier) :
    (Form.node "." [object, .leaf name.name]).Means number (.get e ⟨name.name, 0⟩) :=
  nodeMeans (by simp) (meanTwo means (nameMeans worded made)) rfl

end Worded

def Deciphers (number : String → Float) : Prop := ∀ x, Number.Counted x → number (Number.text .tree x) = x

theorem deciphersSome : ∃ number, Deciphers number := by
  have injective : Set.InjOn (Number.text .tree) {x | Number.Counted x} :=
    fun _ counted _ counted' same => Number.countedUnique counted counted' same
  exact ⟨_, fun _ counted => injective.leftInvOn_invFunOn counted⟩

mutual

theorem Expr.formMeans {number : String → Float} (deciphers : Deciphers number) {source : List Token}
    (worded : Worded source) : ∀ {e : Expr}, e.Plain → e.MadeOf source → e.form.Means number e.bare
  | .literal (.number value) _, plain, made => by
    have counted := numberWorded worded made plain
    have numeral := Number.countedNumeral counted
    refine ⟨numeralUndivided numeral, congrArg some ((leafNumber numeral).trans ?_)⟩
    rw [deciphers value counted]
    rfl
  | .literal (.string _) _, plain, _ => plain.elim
  | .literal (.bool true) _, _, _ => ⟨nameUndivided (keywordShaped .kwTrue), rfl⟩
  | .literal (.bool false) _, _, _ => ⟨nameUndivided (keywordShaped .kwFalse), rfl⟩
  | .literal .nil _, _, _ => ⟨nameUndivided (keywordShaped .kwNil), rfl⟩
  | .unary op right _, plain, made => by
    have only := Expr.formMeans deciphers worded (e := right) plain made
    exact nodeMeans (by cases op <;> simp [UnaryOp.text]) (meanCons only meanNil) (by cases op <;> rfl)
  | .binary left op right _, plain, made => by
    have first := Expr.formMeans deciphers worded plain.1 made.1
    have second := Expr.formMeans deciphers worded plain.2 made.2
    exact nodeMeans (by cases op <;> simp [BinaryOp.text]) (meanTwo first second) (by cases op <;> rfl)
  | .logical left op right _, plain, made => by
    have first := Expr.formMeans deciphers worded plain.1 made.1
    have second := Expr.formMeans deciphers worded plain.2 made.2
    exact nodeMeans (by cases op <;> simp [LogicalOp.text]) (meanTwo first second) (by cases op <;> rfl)
  | .ternary condition thenBranch elseBranch _, plain, made => by
    have test := Expr.formMeans deciphers worded plain.1 made.1
    have first := Expr.formMeans deciphers worded plain.2.1 made.2.1
    have second := Expr.formMeans deciphers worded plain.2.2 made.2.2
    exact nodeMeans (by simp) (meanCons test (meanTwo first second)) rfl
  | .grouping inner, plain, made => by
    have only := Expr.formMeans deciphers worded (e := inner) plain made
    exact nodeMeans (by simp) (meanCons only meanNil) rfl
  | .var name _, _, made => nameMeans worded made.1
  | .assign name value _, plain, made => by
    have second := Expr.formMeans deciphers worded (e := value) plain made.2.1
    exact nodeMeans (by simp) (meanTwo (nameMeans worded made.1) second) rfl
  | .call callee arguments _, plain, made => by
    have first := Expr.formMeans deciphers worded plain.1 made.1
    exact nodeMeans (by simp) (meanCons first (Expr.formsMean deciphers worded plain.2 made.2.2)) rfl
  | .get object name, plain, made => by
    have inner := Expr.formMeans deciphers worded (e := object) plain made.1
    exact propertyMeans worded inner made.2
  | .set object name value, plain, made => by
    have inner := Expr.formMeans deciphers worded plain.1 made.1
    have second := Expr.formMeans deciphers worded plain.2 made.2.2
    exact nodeMeans (by simp) (meanTwo (propertyMeans worded inner made.2.1) second) rfl
  | .this keyword _, _, made => by
    refine ⟨nameUndivided (keywordShaped .kwThis), ?_⟩
    rw [Expr.bare, Expr.mapLines, Ident.mapLine, thisWorded worded made.1]
    rfl
  | .lambda _, plain, _ => plain.elim

theorem Expr.formsMean {number : String → Float} (deciphers : Deciphers number) {source : List Token}
    (worded : Worded source) : ∀ {es : List Expr}, Expr.PlainAll es → Expr.MadeOfAll source es →
      Form.MeanAll number (Expr.forms es) (Expr.clearedAll (Expr.mapLinesAll (fun _ => 0) es))
  | [], _, _ => meanNil
  | _ :: _, plain, made => by
    have first := Expr.formMeans deciphers worded plain.1 made.1
    exact meanCons first (Expr.formsMean deciphers worded plain.2 made.2)

end

theorem bareUnique {source source' : List Token} (worded : Worded source) (worded' : Worded source') {e e' : Expr}
    (made : e.MadeOf source) (made' : e'.MadeOf source') (plain : e.Plain) (plain' : e'.Plain)
    (same : e.text = e'.text) : e.bare = e'.bare := by
  obtain ⟨number, deciphers⟩ := deciphersSome
  have means := Expr.formMeans deciphers worded plain made
  have means' := Expr.formMeans deciphers worded' plain' made'
  have ends : Ended [] := fun c none => by cases none
  have texts : e.form.text.toList ++ [] = e'.form.text.toList ++ [] := by rw [e.formText, e'.formText, same]
  have form := (Form.textUnique means.1 means'.1 ends ends texts).1
  exact Option.some.inj (means.2.symm.trans (form ▸ means'.2))

theorem tokensWorded {source : String} {tokens : List Token} (scanned : Source.tokens source = .ok tokens) :
    Worded tokens := by
  intro t member kind
  rw [tokensScanned scanned] at member
  have word : t ∈ wordsOf source := List.mem_filter.mpr ⟨member, by simpa using kind⟩
  exact wordsAreWords word

theorem expressionTokens {source : String} {e : Expr} (read : Source.expression source = .ok e) :
    ∃ tokens, Source.tokens source = .ok tokens ∧ parseExpression tokens = .ok e := by
  unfold Source.expression at read
  cases scanned : Source.tokens source with
  | error errors =>
    rw [scanned] at read
    cases read
  | ok tokens =>
    rw [scanned] at read
    refine ⟨tokens, rfl, ?_⟩
    cases parsed : parseExpression tokens with
    | error error =>
      simp only [bind, Except.bind, parsed] at read
      cases read
    | ok e' =>
      simp only [bind, Except.bind, parsed] at read
      cases read
      rfl

theorem textUnambiguous {source source' : String} {e e' : Expr} (read : Source.expression source = .ok e)
    (read' : Source.expression source' = .ok e') (plain : e.Plain) (plain' : e'.Plain) (same : e.text = e'.text) :
    e.bare = e'.bare := by
  obtain ⟨tokens, scanned, parsed⟩ := expressionTokens read
  obtain ⟨tokens', scanned', parsed'⟩ := expressionTokens read'
  exact bareUnique (tokensWorded scanned) (tokensWorded scanned') (expressionMadeOf parsed)
    (expressionMadeOf parsed') plain plain' same

/- A string may be spelled like a name. -/
example : (Expr.literal (.string "a") 1).text = (Expr.var ⟨"a", 1⟩ none).text := rfl

/- A property named like a head, of a variable named like another, is set to a negated group. -/
def closeText : String := "call.group = -(1.5)"

def wideText : String := "call\n. group =\n- ( 1.50 )"

def settingTree (middle last : Nat) (value : Float) : Expr :=
  .set (.var ⟨"call", 1⟩ none) ⟨"group", middle⟩ (.unary .negate (.grouping (.literal (.number value) last)) last)

def closeTree : Expr := settingTree 1 1 (Number.ofDigits ['1'] ['5'])

def wideTree : Expr := settingTree 2 3 (Number.ofDigits ['1'] ['5', '0'])

theorem closeRead : Source.expression closeText = .ok closeTree := readAs (by decide +kernel)

theorem wideRead : Source.expression wideText = .ok wideTree := readAs (by decide +kernel)

theorem closeTextUnambiguous : Source.expression closeText = .ok closeTree ∧
    Source.expression wideText = .ok wideTree ∧ closeTree.text = wideTree.text ∧ closeTree.bare = wideTree.bare := by
  have same : closeTree.text = wideTree.text := by decide +kernel
  have finite : Number.magnitude (Number.ofDigits ['1'] ['5']) ≠ .infinite := by decide +kernel
  have finite' : Number.magnitude (Number.ofDigits ['1'] ['5', '0']) ≠ .infinite := by decide +kernel
  exact ⟨closeRead, wideRead, same, textUnambiguous closeRead wideRead ⟨trivial, finite⟩ ⟨trivial, finite'⟩ same⟩

end Treewalk
