
/-! Prefix forms: a leaf, or a head with operands in brackets. Where leaves and heads hold no blanks and no brackets, no
two forms begin the same text, so a text is that of one form. -/
namespace Treewalk

inductive Form where
  | leaf (text : String)
  | node (head : String) (operands : List Form)

mutual

@[simp]
def Form.text : Form → String
  | .leaf text => text
  | .node head operands => "(" ++ head ++ Form.operandsText operands ++ ")"

@[simp]
def Form.operandsText : List Form → String
  | [] => ""
  | f :: rest => " " ++ f.text ++ Form.operandsText rest

end

@[simp]
def Divider (c : Char) : Prop := c = ' ' ∨ c = '(' ∨ c = ')'

instance (c : Char) : Decidable (Divider c) := by
  unfold Divider
  infer_instance

@[simp]
def Undivided (cs : List Char) : Prop := ∀ c ∈ cs, ¬ Divider c

mutual

def Form.Solid : Form → Prop
  | .leaf text => Undivided text.toList
  | .node head operands => Undivided head.toList ∧ Form.SolidAll operands

def Form.SolidAll : List Form → Prop
  | [] => True
  | f :: rest => f.Solid ∧ Form.SolidAll rest

end

/- What may follow a form: nothing, a blank or a closing bracket. -/
def Ended (rest : List Char) : Prop := ∀ c, rest.head? = some c → c = ' ' ∨ c = ')'

theorem undividedTaken {cs rest : List Char} (undivided : Undivided cs) (ended : Ended rest) :
    (cs ++ rest).takeWhile (fun c => ¬ Divider c) = cs := by
  have inner : ∀ c ∈ cs, decide (¬ Divider c) = true := fun c member => decide_eq_true (undivided c member)
  rw [List.takeWhile_append_of_pos inner]
  cases rest with
  | nil => simp
  | cons c later => rcases ended c rfl with rfl | rfl <;> simp

theorem undividedUnique {cs cs' rest rest' : List Char} (undivided : Undivided cs) (undivided' : Undivided cs')
    (ended : Ended rest) (ended' : Ended rest') (same : cs ++ rest = cs' ++ rest') : cs = cs' ∧ rest = rest' := by
  have front : cs = cs' := by
    rw [← undividedTaken undivided ended, same, undividedTaken undivided' ended']
  subst front
  exact ⟨rfl, List.append_cancel_left same⟩

theorem undividedNotNode {cs rest later : List Char} (undivided : Undivided cs) (ended : Ended rest) :
    cs ++ rest ≠ '(' :: later := by
  intro same
  cases cs with
  | nil =>
    have first := ended '(' (by rw [List.nil_append] at same; rw [same]; rfl)
    exact absurd first (by decide)
  | cons c cs =>
    cases same
    exact undivided '(' List.mem_cons_self (.inr (.inl rfl))

theorem Form.nodeText (head : String) (operands : List Form) (rest : List Char) :
    (Form.node head operands).text.toList ++ rest =
      '(' :: (head.toList ++ ((Form.operandsText operands).toList ++ ')' :: rest)) := by
  simp

theorem Form.operandText (f : Form) (operands : List Form) (rest : List Char) :
    (Form.operandsText (f :: operands)).toList ++ rest =
      ' ' :: (f.text.toList ++ ((Form.operandsText operands).toList ++ rest)) := by
  simp

theorem operandsEnded {operands : List Form} {rest : List Char} :
    Ended ((Form.operandsText operands).toList ++ ')' :: rest) := by
  cases operands with
  | nil =>
    intro c same
    exact .inr (Option.some.inj same).symm
  | cons f operands =>
    intro c same
    rw [Form.operandText] at same
    exact .inl (Option.some.inj same).symm

mutual

theorem Form.textUnique : ∀ {f g : Form} {rest rest' : List Char}, f.Solid → g.Solid → Ended rest → Ended rest' →
    f.text.toList ++ rest = g.text.toList ++ rest' → f = g ∧ rest = rest'
  | .leaf text, .leaf text', _, _, solid, solid', ended, ended', same => by
    obtain ⟨texts, rests⟩ := undividedUnique solid solid' ended ended' same
    exact ⟨congrArg Form.leaf (String.toList_inj.mp texts), rests⟩
  | .leaf text, .node head operands, _, _, solid, _, ended, _, same => by
    rw [Form.nodeText] at same
    exact absurd same (undividedNotNode solid ended)
  | .node head operands, .leaf text, _, _, _, solid, _, ended, same => by
    rw [Form.nodeText] at same
    exact absurd same.symm (undividedNotNode solid ended)
  | .node head operands, .node head' operands', _, _, solid, solid', _, _, same => by
    rw [Form.nodeText, Form.nodeText, List.cons.injEq] at same
    obtain ⟨heads, inner⟩ := undividedUnique solid.1 solid'.1 operandsEnded operandsEnded same.2
    obtain ⟨all, rests⟩ := Form.operandsUnique solid.2 solid'.2 inner
    exact ⟨by rw [String.toList_inj.mp heads, all], rests⟩

theorem Form.operandsUnique : ∀ {fs gs : List Form} {rest rest' : List Char}, Form.SolidAll fs → Form.SolidAll gs →
    (Form.operandsText fs).toList ++ ')' :: rest = (Form.operandsText gs).toList ++ ')' :: rest' →
      fs = gs ∧ rest = rest'
  | [], [], _, _, _, _, same => ⟨rfl, (List.cons.inj same).2⟩
  | [], g :: gs, _, _, _, _, same => by
    rw [Form.operandText] at same
    exact absurd (List.cons.inj same).1 (by decide)
  | f :: fs, [], _, _, _, _, same => by
    rw [Form.operandText] at same
    exact absurd (List.cons.inj same).1 (by decide)
  | f :: fs, g :: gs, _, _, solid, solid', same => by
    rw [Form.operandText, Form.operandText, List.cons.injEq] at same
    obtain ⟨first, later⟩ := Form.textUnique solid.1 solid'.1 operandsEnded operandsEnded same.2
    obtain ⟨others, rests⟩ := Form.operandsUnique solid.2 solid'.2 later
    exact ⟨by rw [first, others], rests⟩

end

end Treewalk
