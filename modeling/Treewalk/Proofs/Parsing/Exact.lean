import Treewalk.Proofs.Parsing.Complete

/-! The parser and the grammar agree. A program is accepted exactly when its tokens are a program of the grammar,
with the tree of the grammar; otherwise there is an error to report. An expression is accepted with its tree
too, but not only then: an error inside the body of a lambda is recovered from and, other than for a
program, not looked at afterwards. -/
namespace Treewalk
open Grammar

theorem rejectedWithErrors {tokens : List Token} {errors : List SyntaxError}
    (rejected : parseProgram tokens = .error errors) : errors ≠ [] := by
  unfold parseProgram at rejected
  split at rejected
  · split at rejected
    · cases rejected
    · rename_i found
      cases rejected
      simpa using found
  · cases rejected
    simp

theorem programExact {tokens : List Token} (ends : EndsOnce tokens) :
    (∀ ast, parseProgram tokens = .ok ast ↔ Grammar.Program tokens ast) ∧
      ((¬ ∃ ast, Grammar.Program tokens ast) →
        ∃ errors, parseProgram tokens = .error errors ∧ errors ≠ []) := by
  refine ⟨fun ast => ⟨programSound ends,programComplete⟩,fun none => ?_⟩
  cases parsed : parseProgram tokens with
  | ok ast => exact absurd ⟨ast,programSound ends parsed⟩ none
  | error errors => exact ⟨errors,rfl,rejectedWithErrors parsed⟩

/- `if (a) if (b) c; else d.e = f;` -/
def nestedIf : List Token :=
  [⟨.keyword .kwIf,"if",1⟩,⟨.symbol .leftParen,"(",1⟩,⟨.identifier,"a",1⟩,⟨.symbol .rightParen,")",1⟩,
    ⟨.keyword .kwIf,"if",1⟩,⟨.symbol .leftParen,"(",1⟩,⟨.identifier,"b",1⟩,⟨.symbol .rightParen,")",1⟩,
    ⟨.identifier,"c",1⟩,⟨.symbol .semicolon,";",1⟩,⟨.keyword .kwElse,"else",1⟩,⟨.identifier,"d",1⟩,
    ⟨.symbol .dot,".",1⟩,⟨.identifier,"e",1⟩,⟨.symbol .equal,"=",1⟩,⟨.identifier,"f",1⟩,
    ⟨.symbol .semicolon,";",1⟩,⟨.eof,"",1⟩]

theorem nestedIfEnds : EndsOnce nestedIf :=
  ⟨nestedIf.dropLast,⟨.eof,"",1⟩,rfl,rfl,by decide⟩

theorem nestedIfParsed : EndsOnce nestedIf ∧ Grammar.Program nestedIf
    [.ifElse (.var ⟨"a",1⟩ none) (.ifElse (.var ⟨"b",1⟩ none) (.expression (.var ⟨"c",1⟩ none))
      (some (.expression (.set (.var ⟨"d",1⟩ none) ⟨"e",1⟩ (.var ⟨"f",1⟩ none))))) none] :=
  ⟨nestedIfEnds,((programExact nestedIfEnds).1 _).mp rfl⟩

/- Without errors in the bodies of lambdas the expression is one of the grammar, and every expression of the
grammar is accepted so. What is accepted beyond the grammar is exactly what was recovered from. -/
theorem expressionExact {tokens : List Token} (ends : EndsOnce tokens) (e : Expr) :
    (parseExpression tokens = .ok e ∧ recoveredErrors tokens = [] ↔ WholeExpression tokens e) ∧
      (parseExpression tokens = .ok e → (¬ WholeExpression tokens e ↔ recoveredErrors tokens ≠ [])) := by
  have reads : parseExpression tokens = .ok e ∧ recoveredErrors tokens = [] ↔ WholeExpression tokens e :=
    ⟨fun accepted => expressionSound ends accepted.1 accepted.2,expressionComplete⟩
  refine ⟨reads,fun accepted => ?_⟩
  rw [← reads]
  exact not_congr ⟨fun both => both.2,fun clean => ⟨accepted,clean⟩⟩

/- `fun () { ; }` -/
def brokenLambda : List Token :=
  [⟨.keyword .kwFun,"fun",1⟩,⟨.symbol .leftParen,"(",1⟩,⟨.symbol .rightParen,")",1⟩,
    ⟨.symbol .leftBrace,"\x7b",1⟩,⟨.symbol .semicolon,";",1⟩,⟨.symbol .rightBrace,"\x7d",1⟩,⟨.eof,"",1⟩]

theorem brokenLambdaEnds : EndsOnce brokenLambda :=
  ⟨brokenLambda.dropLast,⟨.eof,"",1⟩,rfl,rfl,by decide⟩

theorem brokenLambdaExact : EndsOnce brokenLambda ∧
    parseExpression brokenLambda = .ok (.lambda ⟨none,[],[],1⟩) ∧
    ¬ WholeExpression brokenLambda (.lambda ⟨none,[],[],1⟩) :=
  ⟨brokenLambdaEnds,rfl,((expressionExact brokenLambdaEnds _).2 rfl).mpr (by decide)⟩

theorem brokenLambdaAccepted : (∃ e, parseExpression brokenLambda = .ok e) ∧
    ¬ ∃ e, WholeExpression brokenLambda e := by
  refine ⟨⟨_,rfl⟩,?_⟩
  rintro ⟨e,phrase⟩
  exact absurd (expressionComplete phrase).2 (by decide)

end Treewalk
