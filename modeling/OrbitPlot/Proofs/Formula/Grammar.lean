import OrbitPlot.Formula.Expr
import OrbitPlot.Formula.Sweep
import OrbitPlot.Numeral.Reading

/-!
# The grammar of terms

What a term means, said without scanning or sweeping: a grammar in which products bind tighter than
sums, operators of one grade group to the left, and an operator on one value belongs to what stands
on its right. A word of the grammar carries the expression it stands for, and since expressions are
typed, nothing derives an ill-typed one.

The grammar is stated over any alphabet in which the operators have letters, because the same shape
occurs twice: over the members of a row, where an atom is one operand, and over text, where an atom
is spelled out. `Derives.expand` carries a derivation from one alphabet to another.

A number and a bracket stand for an expression with *some* slot. Which slot it is given is not a
matter of grammar.
-/

namespace OrbitPlot

/-! ## Expanding letters -/

/-- A word over one alphabet becomes a word over another, a stretch of letters for each letter. -/
inductive Expands {σ τ : Type} (R : σ → List τ → Prop) : List σ → List τ → Prop where
  | nil : Expands R [] []
  | cons {letter stretch word rest} (h : R letter stretch) (hrest : Expands R word rest) :
    Expands R (letter :: word) (stretch ++ rest)

namespace Expands

variable {σ τ : Type} {R : σ → List τ → Prop}

theorem cons_letter {letter : σ} {x : τ} {word : List σ} {rest : List τ} (h : R letter [x])
    (hrest : Expands R word rest) : Expands R (letter :: word) (x :: rest) := .cons h hrest

theorem flatMap (f : σ → List τ) (word : List σ) :
    Expands (fun letter w ↦ w = f letter) word (word.flatMap f) := by
  induction word with
  | nil => exact .nil
  | cons letter word ih =>
    rw [List.flatMap_cons]
    exact .cons rfl ih

theorem cons_inv {letter : σ} {word : List σ} {w : List τ} (h : Expands R (letter :: word) w) :
    ∃ stretch rest, w = stretch ++ rest ∧ R letter stretch ∧ Expands R word rest := by
  cases h with
  | cons h hrest => exact ⟨_, _, rfl, h, hrest⟩

theorem append_inv {u v : List σ} {w : List τ} (h : Expands R (u ++ v) w) :
    ∃ u' v', w = u' ++ v' ∧ Expands R u u' ∧ Expands R v v' := by
  induction u generalizing w with
  | nil => exact ⟨[], w, rfl, .nil, h⟩
  | cons letter u ih =>
    obtain ⟨stretch, rest, rfl, hletter, hrest⟩ := cons_inv h
    obtain ⟨u', v', rfl, hu, hv⟩ := ih hrest
    exact ⟨stretch ++ u', v', (List.append_assoc ..).symm, .cons hletter hu, hv⟩

end Expands

/-! ## Derivations -/

/-- The letters that operators have in an alphabet. -/
structure Alphabet (σ : Type) where
  /-- The letter of an operator on one value. -/
  unary : UnaryOp → σ
  /-- The letter of an operator between two values. -/
  binary : BinaryOp → σ

/-- How tightly the parts of an expression hold together. -/
inductive Grade where
  /-- An atom behind any number of operators on one value. -/
  | factor
  /-- Factors joined by products. -/
  | product
  /-- Products joined by sums and differences. -/
  | sum

/-- An operator applied to an expression of the kind it asks for. -/
def Expr.unary : (op : UnaryOp) → Expr op.operandKind → Expr .real
  | .abs => .abs
  | .re => .re
  | .im => .im

/-- A word of some grade and the expression it stands for, given which words are atoms. -/
inductive Derives {σ : Type} (A : Alphabet σ) (atom : ∀ kind, List σ → Expr kind → Prop) :
    Grade → ∀ {kind}, List σ → Expr kind → Prop
  /-- An atom is a factor. -/
  | atom {kind word} {e : Expr kind} (h : atom kind word e) : Derives A atom .factor word e
  /-- An operator on one value takes the factor on its right. -/
  | unary {op word} {e : Expr op.operandKind} (h : Derives A atom .factor word e) :
    Derives A atom .factor (A.unary op :: word) (.unary op e)
  /-- A factor is a product of one. -/
  | product {kind word} {e : Expr kind} (h : Derives A atom .factor word e) :
    Derives A atom .product word e
  /-- A product takes one more factor on its right. -/
  | mul {kind left right} {l r : Expr kind} (hl : Derives A atom .product left l)
    (hr : Derives A atom .factor right r) :
    Derives A atom .product (left ++ A.binary .mul :: right) (.binary .mul l r)
  /-- A product is a sum of one. -/
  | sum {kind word} {e : Expr kind} (h : Derives A atom .product word e) :
    Derives A atom .sum word e
  /-- A sum takes one more product on its right, to be added or taken away. -/
  | additive {op kind left right} {l r : Expr kind} (hop : op ≠ .mul)
    (hl : Derives A atom .sum left l) (hr : Derives A atom .product right r) :
    Derives A atom .sum (left ++ A.binary op :: right) (.binary op l r)

namespace Derives

variable {σ τ : Type} {A : Alphabet σ} {B : Alphabet τ}
  {atom : ∀ kind, List σ → Expr kind → Prop} {atom' : ∀ kind, List τ → Expr kind → Prop}

/-- If operators become themselves and atoms become atoms, an expanded word stands for the same
expression. -/
theorem expand {R : σ → List τ → Prop} (hunary : ∀ op w, R (A.unary op) w → w = [B.unary op])
    (hbinary : ∀ op w, R (A.binary op) w → w = [B.binary op])
    (hatom : ∀ kind word (e : Expr kind) w, atom kind word e → Expands R word w → atom' kind w e)
    {g : Grade} {kind : Kind} {word : List σ} {e : Expr kind} (h : Derives A atom g word e)
    {w : List τ} (hw : Expands R word w) : Derives B atom' g w e := by
  induction h generalizing w with
  | atom h => exact .atom (hatom _ _ _ _ h hw)
  | unary _ ih =>
    obtain ⟨_, rest, rfl, hop, hrest⟩ := hw.cons_inv
    rw [hunary _ _ hop]
    exact .unary (ih hrest)
  | product _ ih => exact .product (ih hw)
  | mul _ _ ihl ihr =>
    obtain ⟨left, _, rfl, hl, hw⟩ := hw.append_inv
    obtain ⟨_, right, rfl, hop, hr⟩ := hw.cons_inv
    rw [hbinary _ _ hop]
    exact .mul (ihl hl) (ihr hr)
  | sum _ ih => exact .sum (ih hw)
  | additive hadd _ _ ihl ihr =>
    obtain ⟨left, _, rfl, hl, hw⟩ := hw.append_inv
    obtain ⟨_, right, rfl, hop, hr⟩ := hw.cons_inv
    rw [hbinary _ _ hop]
    exact .additive hadd (ihl hl) (ihr hr)

theorem forall_mem {P : σ → Prop} (hunary : ∀ op, P (A.unary op)) (hbinary : ∀ op, P (A.binary op))
    (hatom : ∀ kind word (e : Expr kind), atom kind word e → ∀ c ∈ word, P c) {g : Grade}
    {kind : Kind} {word : List σ} {e : Expr kind} (h : Derives A atom g word e) :
    ∀ c ∈ word, P c := by
  induction h with
  | atom h => exact hatom _ _ _ h
  | unary _ ih => exact List.forall_mem_cons.2 ⟨hunary _, ih⟩
  | product _ ih => exact ih
  | mul _ _ ihl ihr =>
    exact List.forall_mem_append.2 ⟨ihl, List.forall_mem_cons.2 ⟨hbinary _, ihr⟩⟩
  | sum _ ih => exact ih
  | additive _ _ _ ihl ihr =>
    exact List.forall_mem_append.2 ⟨ihl, List.forall_mem_cons.2 ⟨hbinary _, ihr⟩⟩

/-- What holds of atoms and is kept by operators holds of a derived expression. -/
theorem forall_expr {P : ∀ {kind}, Expr kind → Prop}
    (hunary : ∀ op (e : Expr op.operandKind), P e → P (Expr.unary op e))
    (hbinary : ∀ op kind (l r : Expr kind), P l → P r → P (.binary op l r))
    (hatom : ∀ kind word (e : Expr kind), atom kind word e → P e) {g : Grade}
    {kind : Kind} {word : List σ} {e : Expr kind} (h : Derives A atom g word e) : P e := by
  induction h with
  | atom h => exact hatom _ _ _ h
  | unary _ ih => exact hunary _ _ ih
  | product _ ih => exact ih
  | mul _ _ ihl ihr => exact hbinary _ _ _ _ ihl ihr
  | sum _ ih => exact ih
  | additive _ _ _ ihl ihr => exact hbinary _ _ _ _ ihl ihr

end Derives

/-! ## Rows -/

namespace Item

/-- The operators as members of a row. -/
def alphabet : Alphabet Item := ⟨.unary, .binary⟩

/-- In a row, one operand is an atom. -/
def Atom (kind : Kind) (row : List Item) (e : Expr kind) : Prop := row = [.operand ⟨e⟩]

end Item

/-! ## Text -/

/-- The characters with a meaning of their own outside brackets. -/
def Text.reserved : Text := ['+', '-', '*', 'a', 'r', 'i', 'c', 'p', 'f', 'u', '[', ']']

/-- The operators as characters. -/
def Text.alphabet : Alphabet Char := ⟨UnaryOp.char, BinaryOp.char⟩

namespace Expr

/-- An atom without brackets: the letter of a variable, or a numeral in which some characters may
not occur. -/
inductive Simple (excluded : Text) : ∀ kind, Text → Expr kind → Prop
  /-- A letter stands for its variable. -/
  | var (v : Variable) : Simple excluded .complex [v.char] (.var v)
  /-- A numeral stands for the number that it reads as. -/
  | number {text value} (slot : Nat) (hchars : ∀ c ∈ text, c ∉ excluded)
    (hvalue : Numeral.float? text = some value) : Simple excluded .real text (.number slot value)

/-- The text of one part of a bracket, which contains no bracket and no comma, and the expression
it stands for. -/
def ReadsPart {kind : Kind} (text : Text) (e : Expr kind) : Prop :=
  Derives Text.alphabet (Simple (',' :: Text.reserved)) .sum text e

/-- An atom of a term: one without brackets, or a bracket with two real parts. -/
inductive Atom : ∀ kind, Text → Expr kind → Prop
  /-- Letters and numerals are atoms. -/
  | simple {kind text} {e : Expr kind} (h : Simple Text.reserved kind text e) : Atom kind text e
  /-- A bracket stands for the point that its two parts make. -/
  | bracket {left right} {x y : Expr .real} (slot : Nat) (hx : ReadsPart left x)
    (hy : ReadsPart right y) : Atom .complex (bracketText left right) (.bracket slot x y)

/-- The text of a term and the expression it stands for. -/
def Reads {kind : Kind} (text : Text) (e : Expr kind) : Prop :=
  Derives Text.alphabet Atom .sum text e

end Expr

end OrbitPlot
