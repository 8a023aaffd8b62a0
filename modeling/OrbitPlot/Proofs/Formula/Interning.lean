import OrbitPlot.Proofs.Formula.Grammar
import OrbitPlot.Proofs.Program.Pool
import OrbitPlot.Recurrence.Reading

/-!
# Interning expressions

Reading an expression fills slots in the order of its text: the numbers of a bracket come first,
then the bracket. `Expr.Interns` says that an expression has the slots that it is given in this way,
and `Expr.Stored` that its slots are in use, which they stay.

A pool is `Sound` if every program in it is that of a bracket whose parts are read without looking
at another bracket and whose numbers are in the same pool.
-/

namespace OrbitPlot

namespace Expr

variable {kind : Kind} {p q r : Pool}

/-- The numbers and brackets of an expression take the pool `p` to the pool `q`, each being given
the slot that the expression has for it. -/
def Interns {kind : Kind} : Expr kind → Pool → Pool → Prop
  | var _, p, q => q = p
  | number slot value, p, q => Pool.internReal value p = .ok slot q
  | bracket slot x y, p, q =>
    -- the whole text shows only in the fault if there is one, so any will do
    ∃ p₁ p₂ whole c, x.Interns p p₁ ∧ y.Interns p₁ p₂ ∧
      Constant.ofParts p₂ whole x y = .ok c ∧ Pool.internComplex c p₂ = .ok slot q
  | abs e, p, q => e.Interns p q
  | re e, p, q => e.Interns p q
  | im e, p, q => e.Interns p q
  | binary _ left right, p, q => ∃ p₁, left.Interns p p₁ ∧ right.Interns p₁ q

theorem interns_unary {op : UnaryOp} {e : Expr op.operandKind} :
    (Expr.unary op e).Interns p q ↔ e.Interns p q := by
  cases op <;> rfl

theorem Interns.extends {e : Expr kind} (h : e.Interns p q) : p.Extends q := by
  induction e generalizing p q with
  | var v => rw [h]; exact .refl p
  | number slot value => exact Pool.extends_of_internReal h
  | bracket slot x y ihx ihy =>
    obtain ⟨p₁, p₂, whole, c, hx, hy, -, hslot⟩ := h
    exact ((ihx hx).trans (ihy hy)).trans (Pool.extends_of_internComplex hslot)
  | abs e ih => exact ih h
  | re e ih => exact ih h
  | im e ih => exact ih h
  | binary op left right ihl ihr =>
    obtain ⟨p₁, hl, hr⟩ := h
    exact (ihl hl).trans (ihr hr)

/-- Every slot of an expression is in use. -/
def Stored (pool : Pool) {kind : Kind} : Expr kind → Prop
  | var _ => True
  | number slot _ => (pool.reals.get? slot).isSome
  | bracket slot _ _ => (pool.complexes.get? slot).isSome
  | abs e => e.Stored pool
  | re e => e.Stored pool
  | im e => e.Stored pool
  | binary _ left right => left.Stored pool ∧ right.Stored pool

theorem Stored.mono (hpq : p.Extends q) {e : Expr kind} (h : e.Stored p) : e.Stored q := by
  induction e with
  | var v => trivial
  | number slot value =>
    obtain ⟨x, hx⟩ := Option.isSome_iff_exists.1 h
    exact Option.isSome_iff_exists.2 ⟨x, hpq.reals hx⟩
  | bracket slot x y =>
    obtain ⟨c, hc⟩ := Option.isSome_iff_exists.1 h
    exact Option.isSome_iff_exists.2 ⟨c, hpq.complexes hc⟩
  | abs e ih => exact ih h
  | re e ih => exact ih h
  | im e ih => exact ih h
  | binary op left right ihl ihr => exact ⟨ihl h.1, ihr h.2⟩

theorem Interns.stored {e : Expr kind} (h : e.Interns p q) : e.Stored q := by
  induction e generalizing p q with
  | var v => trivial
  | number slot value =>
    obtain ⟨reals, hintern, rfl⟩ := Pool.internReal_eq_ok_iff.1 h
    obtain ⟨x, hx, -⟩ := Slots.get?_slot_of_intern hintern
    exact Option.isSome_iff_exists.2 ⟨x, hx⟩
  | bracket slot x y =>
    obtain ⟨p₁, p₂, whole, c, -, -, -, hslot⟩ := h
    obtain ⟨complexes, hintern, rfl⟩ := Pool.internComplex_eq_ok_iff.1 hslot
    obtain ⟨c, hc, -⟩ := Slots.get?_slot_of_intern hintern
    exact Option.isSome_iff_exists.2 ⟨c, hc⟩
  | abs e ih => exact ih h
  | re e ih => exact ih h
  | im e ih => exact ih h
  | binary op left right ihl ihr =>
    obtain ⟨p₁, hl, hr⟩ := h
    exact ⟨(ihl hl).mono hr.extends, ihr hr⟩

/-- No bracket occurs. -/
def Flat {kind : Kind} : Expr kind → Prop
  | var _ => True
  | number _ _ => True
  | bracket _ _ _ => False
  | abs e => e.Flat
  | re e => e.Flat
  | im e => e.Flat
  | binary _ left right => left.Flat ∧ right.Flat

theorem flat_unary {op : UnaryOp} {e : Expr op.operandKind} :
    (Expr.unary op e).Flat ↔ e.Flat := by
  cases op <;> rfl

/-- No bracket occurs inside another. -/
def Shallow {kind : Kind} : Expr kind → Prop
  | var _ => True
  | number _ _ => True
  | bracket _ x y => x.Flat ∧ y.Flat
  | abs e => e.Shallow
  | re e => e.Shallow
  | im e => e.Shallow
  | binary _ left right => left.Shallow ∧ right.Shallow

theorem Flat.shallow {e : Expr kind} (h : e.Flat) : e.Shallow := by
  induction e with
  | var v => trivial
  | number slot value => trivial
  | bracket slot x y => exact absurd h id
  | abs e ih => exact ih h
  | re e ih => exact ih h
  | im e ih => exact ih h
  | binary op left right ihl ihr => exact ⟨ihl h.1, ihr h.2⟩

/-- Something holds of every bracket in an expression, of its slot and its two parts. -/
def AllBrackets (P : Nat → Expr .real → Expr .real → Prop) {kind : Kind} : Expr kind → Prop
  | var _ => True
  | number _ _ => True
  | bracket slot x y => P slot x y
  | abs e => e.AllBrackets P
  | re e => e.AllBrackets P
  | im e => e.AllBrackets P
  | binary _ left right => left.AllBrackets P ∧ right.AllBrackets P

section

variable {P Q : Nat → Expr .real → Expr .real → Prop}

theorem allBrackets_unary {op : UnaryOp} {e : Expr op.operandKind} :
    (Expr.unary op e).AllBrackets P ↔ e.AllBrackets P := by
  cases op <;> rfl

theorem AllBrackets.imp (hPQ : ∀ slot x y, P slot x y → Q slot x y) {e : Expr kind}
    (h : e.AllBrackets P) : e.AllBrackets Q := by
  induction e with
  | var v => trivial
  | number slot value => trivial
  | bracket slot x y => exact hPQ slot x y h
  | abs e ih => exact ih h
  | re e ih => exact ih h
  | im e ih => exact ih h
  | binary op left right ihl ihr => exact ⟨ihl h.1, ihr h.2⟩

end

/-- The parts of every bracket have been read. -/
def Legible {kind : Kind} (e : Expr kind) : Prop :=
  e.AllBrackets fun _ x y ↦ (∃ left, x.ReadsPart left) ∧ ∃ right, y.ReadsPart right

end Expr

/-! ## Sound pools -/

/-- A program in a pool is that of a bracket with flat parts, whose numbers are in that pool. -/
def Constant.Sound (pool : Pool) : Constant → Prop
  | fixed _ => True
  | varying program =>
    ∃ x y : Expr .real, program = .bracket x y ∧ x.Flat ∧ y.Flat ∧ x.Stored pool ∧ y.Stored pool

theorem Constant.Sound.mono {p q : Pool} (hpq : p.Extends q) {c : Constant} (h : c.Sound p) :
    c.Sound q := by
  cases c with
  | fixed z => trivial
  | varying program =>
    obtain ⟨x, y, rfl, hx, hy, hxs, hys⟩ := h
    exact ⟨x, y, rfl, hx, hy, hxs.mono hpq, hys.mono hpq⟩

theorem Constant.sound_of_ofParts {pool : Pool} {whole : Text} {x y : Expr .real} {c : Constant}
    (h : Constant.ofParts pool whole x y = .ok c) (hx : x.Flat) (hy : y.Flat)
    (hxs : x.Stored pool) (hys : y.Stored pool) : c.Sound pool := by
  unfold ofParts at h
  split at h
  · cases h
    exact ⟨x, y, rfl, hx, hy, hxs, hys⟩
  · split at h
    · cases h
      trivial
    · cases h

namespace Pool

/-- Every program in the pool is that of a bracket with flat parts, whose numbers are there too. -/
def Sound (pool : Pool) : Prop :=
  ∀ ⦃slot c⦄, pool.complexes.get? slot = some c → c.Sound pool

variable {p q : Pool} {slot : Nat}

theorem sound_empty : Sound {} := by
  intro slot c h
  rw [Slots.get?_empty] at h
  cases h

theorem Sound.internReal {x : Float} (hp : p.Sound) (h : Pool.internReal x p = .ok slot q) :
    q.Sound := by
  have hpq := extends_of_internReal h
  obtain ⟨reals, -, rfl⟩ := internReal_eq_ok_iff.1 h
  exact fun slot c hc ↦ (hp hc).mono hpq

theorem Sound.internComplex {c : Constant} (hp : p.Sound) (hc : c.Sound p)
    (h : Pool.internComplex c p = .ok slot q) : q.Sound := by
  have hpq := extends_of_internComplex h
  obtain ⟨complexes, hintern, rfl⟩ := internComplex_eq_ok_iff.1 h
  intro k d hd
  rcases Slots.get?_eq_or_of_intern hintern hd with hd | rfl
  · exact (hp hd).mono hpq
  · exact hc.mono hpq

end Pool

/-- Interning an expression in which no bracket is inside another keeps a pool sound. -/
theorem Expr.Interns.sound {kind : Kind} {e : Expr kind} {p q : Pool} (h : e.Interns p q)
    (he : e.Shallow) (hp : p.Sound) : q.Sound := by
  induction e generalizing p q with
  | var v => rw [h]; exact hp
  | number slot value => exact hp.internReal h
  | bracket slot x y ihx ihy =>
    obtain ⟨p₁, p₂, whole, c, hx, hy, hc, hslot⟩ := h
    have hp₂ := ihy hy he.2.shallow (ihx hx he.1.shallow hp)
    exact hp₂.internComplex
      (Constant.sound_of_ofParts hc he.1 he.2 (hx.stored.mono hy.extends) hy.stored) hslot
  | abs e ih => exact ih h he hp
  | re e ih => exact ih h he hp
  | im e ih => exact ih h he hp
  | binary op left right ihl ihr =>
    obtain ⟨p₁, hl, hr⟩ := h
    exact ihr hr he.2 (ihl hl he.1 hp)

end OrbitPlot
