import OrbitPlot.Formula.Error
import OrbitPlot.Formula.Expr

/-!
# Sweeps

There is no grouping in formulas, so a row of operands and operators becomes one expression in
three sweeps: first every operator on one value takes the operand on its right, then products are
formed, then sums and differences. The first sweep goes from right to left, so that operators in a
row apply from the innermost outwards; the others go from left to right.

A sweep either fails at the first operator it cannot serve, or leaves no operator of its kind
behind. `text_bindUnary` and `text_joinBinary` say that no sweep changes the spelling of the row.
-/

namespace OrbitPlot

/-! ## Rows -/

/-- An expression of either kind. -/
structure Operand where
  /-- The kind of the expression. -/
  {kind : Kind}
  /-- The expression. -/
  expr : Expr kind

namespace Operand

/-- An operator applied to an operand of the kind it asks for. -/
def unary : UnaryOp → Operand → Except FormulaError Operand
  | .abs, ⟨(e : Expr .real)⟩ => .ok ⟨.abs e⟩
  | .re, ⟨(e : Expr .complex)⟩ => .ok ⟨.re e⟩
  | .im, ⟨(e : Expr .complex)⟩ => .ok ⟨.im e⟩
  | op, e => .error (.wrongKind op e.kind)

/-- Two operands of one kind joined by an operator. -/
def join (op : BinaryOp) : (left right : Operand) → Except FormulaError Operand
  | ⟨(l : Expr .real)⟩, ⟨(r : Expr .real)⟩ => .ok ⟨.binary op l r⟩
  | ⟨(l : Expr .complex)⟩, ⟨(r : Expr .complex)⟩ => .ok ⟨.binary op l r⟩
  | _, _ => .error (.mixedKinds op)

/-- The spelling of an operand. -/
def text (e : Operand) : Text := e.expr.source

theorem text_of_unary {op : UnaryOp} {e e' : Operand} (h : e.unary op = .ok e') :
    e'.text = op.char :: e.text := by
  unfold unary at h
  split at h <;> cases h <;> rfl

theorem text_of_join {op : BinaryOp} {l r e : Operand} (h : l.join op r = .ok e) :
    e.text = l.text ++ op.char :: r.text := by
  unfold join at h
  split at h <;> cases h <;> rfl

end Operand

/-- A member of a row. -/
inductive Item where
  /-- An expression that is complete in itself. -/
  | operand (e : Operand)
  /-- An operator that waits for the operand on its right. -/
  | unary (op : UnaryOp)
  /-- An operator that waits for an operand on either side. -/
  | binary (op : BinaryOp)

/-- The spelling of a member of a row. -/
def Item.text : Item → Text
  | operand e => e.text
  | unary op => [op.char]
  | binary op => [op.char]

namespace Item

/-! ## The sweeps -/

/-- Gives every operator on one value the operand on its right, the last operator first. -/
def bindUnary : List Item → Except FormulaError (List Item)
  | [] => .ok []
  | item :: row => do
    let row ← bindUnary row
    match item, row with
    | unary op, operand e :: row => return operand (← e.unary op) :: row
    | unary op, _ => throw (.noOperand op)
    | item, row => return item :: row

/-- Forms the results of some of the operators in a row, of which `left` is the first member. -/
def joinAfter (ops : List BinaryOp) (left : Item) : List Item → Except FormulaError (List Item)
  | [] => .ok [left]
  | binary op :: row =>
    if op ∈ ops then
      match left, row with
      | operand l, operand r :: row => do joinAfter ops (operand (← l.join op r)) row
      | operand _, _ => throw (.nothingOnRight op)
      | _, _ => throw (.nothingOnLeft op)
    else do return left :: (← joinAfter ops (binary op) row)
  | item :: row => do return left :: (← joinAfter ops item row)

/-- Forms the results of some of the operators, from left to right. -/
def joinBinary (ops : List BinaryOp) : List Item → Except FormulaError (List Item)
  | [] => .ok []
  | binary op :: row =>
    if op ∈ ops then throw (.nothingOnLeft op) else joinAfter ops (binary op) row
  | item :: row => joinAfter ops item row

/-- The one expression that a row stands for. -/
def combine (row : List Item) : Except FormulaError Operand := do
  let row ← bindUnary row
  let row ← joinBinary [.mul] row
  let row ← joinBinary [.add, .sub] row
  match row with
  | [] => throw (.notComplex [])
  | [operand e] => return e
  | row => throw (.unjoined (row.flatMap text))

/-! ## What sweeps preserve -/

section

variable {α : Type} {f : Item → List α}

/-- What is told of the members of a row one after another, giving operators their operands does
not change, if an operator and its operand tell as much as what is made of them. -/
theorem flatMap_bindUnary
    (hf : ∀ {op e o}, Operand.unary op e = .ok o →
      f (operand o) = f (unary op) ++ f (operand e))
    {row row' : List Item} (h : bindUnary row = .ok row') : row'.flatMap f = row.flatMap f := by
  induction row generalizing row' with
  | nil => cases h; rfl
  | cons item row ih =>
    unfold bindUnary at h
    cases hrow : bindUnary row with
    | error e => simp [hrow, bind, Except.bind] at h
    | ok bound =>
      rw [List.flatMap_cons, ← ih hrow]
      simp only [hrow, bind, Except.bind] at h
      split at h
      · next op e rest =>
        cases he : e.unary op with
        | error e => simp [he] at h
        | ok e' =>
          rw [he] at h
          cases h
          simp [hf he]
      · cases h
      · cases h; rfl

variable {ops : List BinaryOp}
  (hf : ∀ {op l r o}, op ∈ ops → Operand.join op l r = .ok o →
    f (operand o) = f (operand l) ++ f (binary op) ++ f (operand r))

include hf

private theorem flatMap_joinAfter {left : Item} {row row' : List Item}
    (h : joinAfter ops left row = .ok row') : row'.flatMap f = f left ++ row.flatMap f := by
  fun_induction joinAfter ops left row generalizing row' with
  | case1 left => cases h; simp
  | case2 op hop l r row ih =>
    cases he : l.join op r with
    | error e => simp [he, bind, Except.bind] at h
    | ok e =>
      rw [ih e (by simpa [he, bind, Except.bind] using h)]
      simp [hf hop he]
  | case3 => cases h
  | case4 => cases h
  | case5 left op row hop ih =>
    cases hrest : joinAfter ops (binary op) row with
    | error e => simp [hrest, bind, Except.bind] at h
    | ok rest =>
      simp only [hrest, bind, Except.bind] at h
      cases h
      simp [ih hrest]
  | case6 left item row hitem ih =>
    cases hrest : joinAfter ops item row with
    | error e => simp [hrest, bind, Except.bind] at h
    | ok rest =>
      simp only [hrest, bind, Except.bind] at h
      cases h
      simp [ih hrest]

/-- Nor does forming results, if what is made of two operands tells as much as they and the operator
between them. -/
theorem flatMap_joinBinary {row row' : List Item} (h : joinBinary ops row = .ok row') :
    row'.flatMap f = row.flatMap f := by
  unfold joinBinary at h
  split at h
  · cases h; rfl
  · split at h
    · cases h
    · exact flatMap_joinAfter hf h
  · exact flatMap_joinAfter hf h

end

theorem text_bindUnary {row row' : List Item} (h : bindUnary row = .ok row') :
    row'.flatMap text = row.flatMap text :=
  flatMap_bindUnary Operand.text_of_unary h

theorem text_joinBinary {ops : List BinaryOp} {row row' : List Item}
    (h : joinBinary ops row = .ok row') : row'.flatMap text = row.flatMap text :=
  flatMap_joinBinary (fun _ he ↦ by simp [text, Operand.text_of_join he]) h

end Item

end OrbitPlot
