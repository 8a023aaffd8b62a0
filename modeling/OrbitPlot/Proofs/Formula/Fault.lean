import OrbitPlot.Formula.Sweep
import OrbitPlot.Formula.Token

/-!
# Faults of the text

Which faults scanning and sweeping find. They are faults of the text, whatever numbers there are
slots for, and they are found before any program is tried out; a sweep fails only at an operator
that it cannot serve.
-/

namespace OrbitPlot

namespace FormulaError

variable {α β : Type} {P Q : FormulaError → Prop}

/-- A fault of another sort than that a program does not leave one point. -/
def IsEarly : FormulaError → Prop
  | .firstUnfit | .nextUnfit => False
  | _ => True

/-- A fault of the text, whatever slots there are: nothing is missing, and no program is unfit. -/
def IsTextual : FormulaError → Prop
  | .tooManyReals | .tooManyComplexes | .firstUnfit | .nextUnfit => False
  | _ => True

theorem IsTextual.isEarly {e : FormulaError} (h : e.IsTextual) : e.IsEarly := by
  cases e <;> trivial

/-- An operator cannot be served: it has no operand, or none of the right kind. -/
def IsUnserved : FormulaError → Prop
  | .noOperand _ | .wrongKind _ _ | .nothingOnLeft _ | .nothingOnRight _ | .mixedKinds _ => True
  | _ => False

theorem IsUnserved.isTextual {e : FormulaError} (h : e.IsUnserved) : e.IsTextual := by
  cases e <;> trivial

/-- If a step fails, then with a fault of this sort. -/
def FailsOnly (P : FormulaError → Prop) (x : Except FormulaError α) : Prop :=
  ∀ e, x = .error e → P e

theorem failsOnly_ok (a : α) : FailsOnly P (.ok a) := by
  rintro _ ⟨⟩

theorem failsOnly_error {e : FormulaError} (h : P e) :
    FailsOnly P (.error e : Except FormulaError α) := by
  rintro _ ⟨⟩
  exact h

theorem FailsOnly.bind {x : Except FormulaError α} {f : α → Except FormulaError β}
    (hx : FailsOnly P x) (hf : ∀ a, FailsOnly P (f a)) : FailsOnly P (x >>= f) := by
  cases x with
  | error e => exact failsOnly_error (hx e rfl)
  | ok a => exact hf a

theorem FailsOnly.mono {x : Except FormulaError α} (hx : FailsOnly P x) (h : ∀ e, P e → Q e) :
    FailsOnly Q x := fun e he ↦ h e (hx e he)

end FormulaError

open FormulaError

namespace Token

theorem failsOnly_outside_inside (text : Text) :
    FailsOnly IsTextual (outside text) ∧ FailsOnly IsTextual (inside text) := by
  -- outside and inside of brackets take turns, so one induction is for both
  induction text with
  | nil => exact ⟨failsOnly_ok _, failsOnly_error trivial⟩
  | cons c rest ih =>
    constructor
    · rw [outside]
      cases Mark.ofChar c with
      | opening => exact ih.2.bind fun _ ↦ failsOnly_ok _
      | closing => exact failsOnly_error trivial
      | binary op =>
        by_cases hrest : rest.isEmpty
        · simp only [hrest]
          exact failsOnly_error trivial
        · simp only [hrest]
          exact ih.1.bind fun _ ↦ failsOnly_ok _
      | unary op =>
        by_cases hrest : rest.isEmpty
        · simp only [hrest]
          exact failsOnly_error trivial
        · simp only [hrest]
          exact ih.1.bind fun _ ↦ failsOnly_ok _
      | var v => exact ih.1.bind fun _ ↦ failsOnly_ok _
      | other => exact ih.1.bind fun _ ↦ failsOnly_ok _
    · rw [inside]
      cases Mark.ofChar c with
      | opening => exact failsOnly_error trivial
      | closing => exact ih.1.bind fun _ ↦ failsOnly_ok _
      | _ => exact ih.2.bind fun _ ↦ failsOnly_ok _

theorem failsOnly_scan (text : Text) : FailsOnly IsTextual (scan text) := by
  unfold scan
  split
  · exact failsOnly_error trivial
  · exact (failsOnly_outside_inside text).1

theorem failsOnly_scanTerms (text : Text) : FailsOnly IsTextual (scanTerms text) := by
  have hsplit : FailsOnly IsTextual (splitTerms text) := by
    unfold splitTerms
    split
    · exact failsOnly_error trivial
    · exact failsOnly_error trivial
    · exact failsOnly_ok _
    · exact failsOnly_error trivial
  refine hsplit.bind fun ⟨first, next⟩ ↦ ?_
  cases hdefined : first.findSome? notYetDefined? with
  | some v =>
    simp only [hdefined]
    exact failsOnly_error trivial
  | none =>
    simp only [hdefined]
    exact (failsOnly_scan first).bind fun _ ↦ (failsOnly_scan next).bind fun _ ↦ failsOnly_ok _

end Token

namespace Item

theorem failsOnly_unary (op : UnaryOp) (e : Operand) : FailsOnly IsUnserved (e.unary op) := by
  unfold Operand.unary
  split
  · exact failsOnly_ok _
  · exact failsOnly_ok _
  · exact failsOnly_ok _
  · exact failsOnly_error trivial

theorem failsOnly_join (op : BinaryOp) (l r : Operand) : FailsOnly IsUnserved (l.join op r) := by
  unfold Operand.join
  split
  · exact failsOnly_ok _
  · exact failsOnly_ok _
  · exact failsOnly_error trivial

theorem failsOnly_bindUnary (row : List Item) : FailsOnly IsUnserved (bindUnary row) := by
  induction row with
  | nil => exact failsOnly_ok _
  | cons item row ih =>
    rw [bindUnary]
    refine ih.bind fun row ↦ ?_
    split
    · exact (failsOnly_unary _ _).bind fun _ ↦ failsOnly_ok _
    · exact failsOnly_error trivial
    · exact failsOnly_ok _

theorem failsOnly_joinAfter (ops : List BinaryOp) (left : Item) (row : List Item) :
    FailsOnly IsUnserved (joinAfter ops left row) := by
  fun_induction joinAfter ops left row with
  | case1 left => exact failsOnly_ok _
  | case2 op hop l r row ih => exact (failsOnly_join op l r).bind ih
  | case3 => exact failsOnly_error trivial
  | case4 => exact failsOnly_error trivial
  | case5 left op row hop ih => exact ih.bind fun _ ↦ failsOnly_ok _
  | case6 left item row hitem ih => exact ih.bind fun _ ↦ failsOnly_ok _

theorem failsOnly_joinBinary (ops : List BinaryOp) (row : List Item) :
    FailsOnly IsUnserved (joinBinary ops row) := by
  unfold joinBinary
  split
  · exact failsOnly_ok _
  · split
    · exact failsOnly_error trivial
    · exact failsOnly_joinAfter ops _ _
  · exact failsOnly_joinAfter ops _ _

theorem failsOnly_combine (row : List Item) : FailsOnly IsTextual (combine row) := by
  have htextual (e : FormulaError) (h : e.IsUnserved) : e.IsTextual := h.isTextual
  refine ((failsOnly_bindUnary row).mono htextual).bind fun row ↦ ?_
  refine ((failsOnly_joinBinary _ row).mono htextual).bind fun row ↦ ?_
  refine ((failsOnly_joinBinary _ row).mono htextual).bind fun row ↦ ?_
  split
  · exact failsOnly_error trivial
  · exact failsOnly_ok _
  · exact failsOnly_error trivial

end Item

end OrbitPlot
