import OrbitPlot.Proofs.Formula.Source
import OrbitPlot.Proofs.Recurrence.Reading

/-!
# Sharing slots is harmless

Numbers share a slot if they are equal as numbers, which the two zeros are; brackets without
variables share one if their values agree in the same sense, and other brackets if their sources
are the same text. None of that ever gives an expression another value.

No number of a formula is negative zero. A numeral has no sign, and so neither have products; a
difference is negative zero only if what it is taken from is, and a sum only if both of its parts
are. So equal numbers are the same. And the source of a bracket tells its parts, slots apart.

## Main statements

* `Expr.ReadsPart.ne_negZero`: no part of a bracket has the value negative zero.
* `Expr.Interns.faithful`: interning gives every number and bracket a slot that holds its value.
* `faithful_of_read`: the programs of a recurrence compute the values of its terms.
-/

namespace OrbitPlot

open Double

/-! ## Negative zero -/

/-- The values of expressions of some grade in which no variable occurs: none has a sign, unless it
is a sum, and none is negative zero. Points are not among them. -/
def Grade.Admits : Grade → {kind : Kind} → kind.Value → Prop
  | .sum, .real, x => x ≠ negZero
  | _, .real, x => Unsigned x
  | _, .complex, _ => False

namespace Expr

variable {env env' : Variable → Point} {kind : Kind} {e : Expr kind} {text : Text}

theorem varies_unary {op : UnaryOp} {e : Expr op.operandKind} :
    (Expr.unary op e).varies = e.varies := by
  cases op <;> rfl

theorem value_eq_of_not_varies (h : e.varies = false) : e.value env = e.value env' := by
  induction e with
  | var v => cases h
  | number slot value => rfl
  | bracket slot x y ihx ihy =>
    obtain ⟨hx, hy⟩ := Bool.or_eq_false_iff.1 h
    rw [value, value, ihx hx, ihy hy]
  | abs e ih => exact congrArg Float.abs (ih h)
  | re e ih => exact congrArg Point.re (ih h)
  | im e ih => exact congrArg Point.im (ih h)
  | binary op left right ihl ihr =>
    obtain ⟨hl, hr⟩ := Bool.or_eq_false_iff.1 h
    rw [value, value, ihl hl, ihr hr]

private theorem admits_of_derives {g : Grade}
    (h : Derives Text.alphabet (Simple (',' :: Text.reserved)) g text e) (hv : e.varies = false) :
    g.Admits (e.value env) := by
  -- a point would need a variable, so only real numbers and what is made of them are there
  induction h with
  | atom h =>
    cases h with
    | var v => cases hv
    | number slot hchars hvalue =>
      exact Numeral.unsigned_of_float? (fun hmem ↦ hchars '-' hmem (by decide)) hvalue
  | @unary op _ e _ ih =>
    have he := ih (varies_unary.symm.trans hv)
    cases op with
    | abs => exact Unsigned.abs _
    | re => exact he.elim
    | im => exact he.elim
  | @product kind _ _ _ ih =>
    cases kind with
    | real => exact ih hv
    | complex => exact (ih hv).elim
  | @mul kind _ _ l r _ _ ihl ihr =>
    obtain ⟨hl, hr⟩ := Bool.or_eq_false_iff.1 hv
    cases kind with
    | real => exact (ihl hl).mul (ihr hr)
    | complex => exact (ihl hl).elim
  | @sum kind _ _ _ ih =>
    cases kind with
    | real => exact (ih hv).ne_negZero
    | complex => exact (ih hv).elim
  | @additive op kind _ _ l r hop _ _ ihl ihr =>
    obtain ⟨hl, hr⟩ := Bool.or_eq_false_iff.1 hv
    cases kind with
    | real =>
      intro h
      cases op with
      | add => exact ihl hl (add_eq_negZero h).1
      | sub => exact ihl hl (sub_eq_negZero h)
      | mul => exact hop rfl
    | complex => exact (ihl hl).elim

theorem ReadsPart.ne_negZero {x : Expr .real} (h : x.ReadsPart text) (hv : x.varies = false) :
    x.value env ≠ negZero := admits_of_derives h hv

end Expr

theorem Point.eq_of_agrees {z w : Point} (hz : z.re ≠ negZero ∧ z.im ≠ negZero)
    (hw : w.re ≠ negZero ∧ w.im ≠ negZero) (h : z.agrees w) : z = w := by
  obtain ⟨hre, him⟩ := Bool.and_eq_true_iff.1 h
  exact congrArg₂ Point.mk (eq_of_beq hz.1 hw.1 hre) (eq_of_beq hz.2 hw.2 him)

/-! ## Slots that hold what they should -/

/-- Every variable has the value that it has in `env`. -/
def Bindings.Gives (b : Bindings) (env : Variable → Point) : Prop :=
  ∀ v, b.lookup v = some (env v)

theorem Bindings.Gives.isSome {b : Bindings} {env : Variable → Point} (h : b.Gives env)
    (v : Variable) : (b.lookup v).isSome := by
  rw [h v]
  rfl

theorem Bindings.gives_zero : zero.Gives fun _ ↦ .zero := by
  intro v
  cases v <;> rfl

namespace Expr

/-- Every number is in its slot, and the slot of every bracket yields the point that its parts make,
wherever all variables have values. -/
def Faithful (pool : Pool) {kind : Kind} : Expr kind → Prop
  | var _ => True
  | number slot value => pool.reals.get? slot = some value
  | bracket slot x y => x.Faithful pool ∧ y.Faithful pool ∧
      ∀ b env, b.Gives env → pool.pointAt b slot = some ⟨x.value env, y.value env⟩
  | abs e => e.Faithful pool
  | re e => e.Faithful pool
  | im e => e.Faithful pool
  | binary _ left right => left.Faithful pool ∧ right.Faithful pool

variable {p q pool : Pool} {kind : Kind} {e : Expr kind} {b : Bindings} {env : Variable → Point}

theorem Faithful.stored (h : e.Faithful pool) : e.Stored pool := by
  induction e with
  | var v => trivial
  | number slot value => exact Option.isSome_iff_exists.2 ⟨value, h⟩
  | bracket slot x y =>
    have hpoint := h.2.2 _ _ Bindings.gives_zero
    cases hslot : pool.complexes.get? slot with
    | some c => exact Option.isSome_iff_exists.2 ⟨c, hslot⟩
    | none => simp only [Pool.pointAt, hslot, reduceCtorEq] at hpoint
  | abs e ih => exact ih h
  | re e ih => exact ih h
  | im e ih => exact ih h
  | binary op left right ihl ihr => exact ⟨ihl h.1, ihr h.2⟩

theorem Faithful.yield_eq (h : e.Faithful pool) (hb : b.Gives env) :
    e.yield pool b (pool.pointAt b) = some (e.value env) := by
  induction e with
  | var v => exact hb v
  | number slot value => exact h
  | bracket slot x y => exact h.2.2 b env hb
  | abs e ih => rw [yield, ih h]; rfl
  | re e ih => rw [yield, ih h]; rfl
  | im e ih => rw [yield, ih h]; rfl
  | binary op left right ihl ihr => rw [yield, ihl h.1, ihr h.2]; rfl

theorem Flat.faithful_mono (he : e.Flat) (hpq : p.Extends q) (h : e.Faithful p) :
    e.Faithful q := by
  induction e with
  | var v => trivial
  | number slot value => exact hpq.reals h
  | bracket slot x y => exact absurd he id
  | abs e ih => exact ih he h
  | re e ih => exact ih he h
  | im e ih => exact ih he h
  | binary op left right ihl ihr => exact ⟨ihl he.1 h.1, ihr he.2 h.2⟩

theorem Faithful.value_bracket {x y : Expr .real} (hx : x.Faithful pool) (hy : y.Faithful pool)
    (hxf : x.Flat) (hyf : y.Flat) (hb : b.Gives env) :
    (Program.bracket x y).value pool b = .ok ⟨x.value env, y.value env⟩ := by
  obtain ⟨re, im, hre, him, hvalue⟩ := Program.value_bracket (b := b) hxf hyf hx.stored hy.stored
    fun i _ ↦ i.bound_of_forall hb.isSome
  obtain rfl := Option.some.inj (hre.symm.trans (hx.yield_eq hb))
  obtain rfl := Option.some.inj (him.symm.trans (hy.yield_eq hb))
  exact hvalue

end Expr

/-! ## Regular pools -/

/-- A constant is regular if no part of it is negative zero or, if it varies, it is the program of a
bracket whose parts can be read and have their numbers in the pool. -/
def Constant.Regular (pool : Pool) : Constant → Prop
  | fixed z => z.re ≠ negZero ∧ z.im ≠ negZero
  | varying program => ∃ (left right : Text) (x y : Expr .real), program = .bracket x y ∧
      x.ReadsPart left ∧ y.ReadsPart right ∧ x.Faithful pool ∧ y.Faithful pool

theorem Constant.Regular.mono {p q : Pool} (hpq : p.Extends q) {c : Constant} (h : c.Regular p) :
    c.Regular q := by
  cases c with
  | fixed z => exact h
  | varying program =>
    obtain ⟨left, right, x, y, rfl, hx, hy, hfx, hfy⟩ := h
    exact ⟨left, right, x, y, rfl, hx, hy, hx.flat.faithful_mono hpq hfx,
      hy.flat.faithful_mono hpq hfy⟩

/-- No number in the pool is negative zero, and every program is that of a bracket that can be
read. -/
structure Pool.Regular (pool : Pool) : Prop where
  /-- No real number is negative zero. -/
  reals : ∀ ⦃slot x⦄, pool.reals.get? slot = some x → x ≠ negZero
  /-- Complex numbers are regular. -/
  complexes : ∀ ⦃slot c⦄, pool.complexes.get? slot = some c → c.Regular pool

namespace Pool

variable {p q pool : Pool} {slot : Nat} {b : Bindings} {env : Variable → Point} {z : Point}

theorem regular_empty : Regular {} := by
  constructor
  · intro slot x h
    rw [Slots.get?_empty] at h
    cases h
  · intro slot c h
    rw [Slots.get?_empty] at h
    cases h

theorem pointAt_fixed (hslot : pool.complexes.get? slot = some (.fixed z)) :
    pool.pointAt b slot = some z := by
  simp only [pointAt, hslot]

theorem pointAt_bracket {x y : Expr .real} (hx : x.Faithful pool) (hy : y.Faithful pool)
    (hxf : x.Flat) (hyf : y.Flat) (hb : b.Gives env)
    (hslot : pool.complexes.get? slot = some (.varying (.bracket x y))) :
    pool.pointAt b slot = some ⟨x.value env, y.value env⟩ := by
  simp only [pointAt, hslot, hx.value_bracket hy hxf hyf hb]
  rfl

/-- What a slot of a regular pool yields does not change when the pool grows. -/
theorem Regular.pointAt_mono (hp : p.Regular) (hpq : p.Extends q) (hb : b.Gives env)
    (h : p.pointAt b slot = some z) : q.pointAt b slot = some z := by
  rw [← h]
  cases hslot : p.complexes.get? slot with
  | none => simp only [pointAt, hslot, reduceCtorEq] at h
  | some c =>
    have hslot' := hpq.complexes hslot
    cases c with
    | fixed w => rw [pointAt_fixed hslot, pointAt_fixed hslot']
    | varying program =>
      obtain ⟨left, right, x, y, rfl, hx, hy, hfx, hfy⟩ := hp.complexes hslot
      rw [pointAt_bracket hfx hfy hx.flat hy.flat hb hslot]
      exact pointAt_bracket (hx.flat.faithful_mono hpq hfx) (hy.flat.faithful_mono hpq hfy)
        hx.flat hy.flat hb hslot'

theorem Regular.internReal {x : Float} (hp : p.Regular) (hx : x ≠ negZero)
    (h : Pool.internReal x p = .ok slot q) : q.Regular ∧ q.reals.get? slot = some x := by
  have hpq := extends_of_internReal h
  obtain ⟨reals, hintern, rfl⟩ := internReal_eq_ok_iff.1 h
  have hreals : ∀ ⦃k y⦄, reals.get? k = some y → y ≠ negZero := by
    intro k y hy
    rcases Slots.get?_eq_or_of_intern hintern hy with hy | rfl
    · exact hp.reals hy
    · exact hx
  refine ⟨⟨hreals, fun k c hc ↦ (hp.complexes hc).mono hpq⟩, ?_⟩
  obtain ⟨y, hy, rfl | hagrees⟩ := Slots.get?_slot_of_intern hintern
  · exact hy
  · rw [← eq_of_beq (hreals hy) hx hagrees]
    exact hy

theorem Regular.internComplex {c : Constant} (hp : p.Regular) (hc : c.Regular p)
    (h : Pool.internComplex c p = .ok slot q) : q.Regular := by
  have hpq := extends_of_internComplex h
  obtain ⟨complexes, hintern, rfl⟩ := internComplex_eq_ok_iff.1 h
  refine ⟨hp.reals, fun k d hd ↦ ?_⟩
  rcases Slots.get?_eq_or_of_intern hintern hd with hd | rfl
  · exact (hp.complexes hd).mono hpq
  · exact hc.mono hpq

end Pool

/-! ## Interning -/

namespace Constant

/-- The constant of a bracket: its program if a variable occurs in it, else the point that its parts
make. -/
def ofBracket (x y : Expr .real) : Constant :=
  if x.varies || y.varies then .varying (.bracket x y)
  else .fixed ⟨x.value fun _ ↦ .zero, y.value fun _ ↦ .zero⟩

variable {p q : Pool} {whole left right : Text} {x y : Expr .real} {c d : Constant} {slot : Nat}

theorem ofParts_eq (hx : x.Faithful p) (hy : y.Faithful p) (hxf : x.Flat) (hyf : y.Flat) :
    ofParts p whole x y = .ok (ofBracket x y) := by
  unfold ofParts ofBracket
  split
  · rfl
  · rw [hx.value_bracket hy hxf hyf Bindings.gives_zero]

theorem ofBracket_cases (x y : Expr .real) :
    ofBracket x y = .varying (.bracket x y) ∨ x.varies = false ∧ y.varies = false ∧
      ∀ env, ofBracket x y = .fixed ⟨x.value env, y.value env⟩ := by
  by_cases h : x.varies || y.varies
  · exact .inl (if_pos h)
  · obtain ⟨hx, hy⟩ := Bool.or_eq_false_iff.1 (Bool.eq_false_iff.2 h)
    refine .inr ⟨hx, hy, fun env ↦ (if_neg h).trans ?_⟩
    rw [Expr.value_eq_of_not_varies hx, Expr.value_eq_of_not_varies hy]

theorem regular_ofBracket (hx : x.Faithful p) (hy : y.Faithful p) (hxr : x.ReadsPart left)
    (hyr : y.ReadsPart right) : (ofBracket x y).Regular p := by
  rcases ofBracket_cases x y with hc | ⟨hxv, hyv, hc⟩
  · rw [hc]
    exact ⟨left, right, x, y, rfl, hxr, hyr, hx, hy⟩
  · rw [hc fun _ ↦ .zero]
    exact ⟨hxr.ne_negZero hxv, hyr.ne_negZero hyv⟩

/-- Whichever regular constant a bracket shares its slot with, the slot yields the point that its
parts make. -/
theorem pointAt_of_agrees (hx : x.Faithful q) (hy : y.Faithful q) (hxr : x.ReadsPart left)
    (hyr : y.ReadsPart right) (hq : q.Regular) (hslot : q.complexes.get? slot = some d)
    (hd : d = ofBracket x y ∨ d.agrees (ofBracket x y)) {b : Bindings} {env : Variable → Point}
    (hb : b.Gives env) : q.pointAt b slot = some ⟨x.value env, y.value env⟩ := by
  have hregular := hq.complexes hslot
  have hbracket := regular_ofBracket hx hy hxr hyr
  rcases ofBracket_cases x y with hc | ⟨-, -, hc⟩
  · rw [hc] at hd
    rcases hd with rfl | hagrees
    · exact Pool.pointAt_bracket hx hy hxr.flat hyr.flat hb hslot
    · cases d with
      | fixed w => cases hagrees
      | varying program =>
        obtain ⟨left', right', x', y', rfl, hxr', hyr', hx', hy'⟩ := hregular
        obtain ⟨hxx, hyy⟩ :=
          Expr.eq_of_bracketText_eq hxr' hyr' hxr hyr (of_decide_eq_true hagrees)
        rw [Pool.pointAt_bracket hx' hy' hxr'.flat hyr'.flat hb hslot, ← x.value_unslotted,
          ← y.value_unslotted, ← hxx, ← hyy, x'.value_unslotted, y'.value_unslotted]
  · rw [hc env] at hd hbracket
    rcases hd with rfl | hagrees
    · exact Pool.pointAt_fixed hslot
    · cases d with
      | fixed w => rw [Pool.pointAt_fixed hslot, Point.eq_of_agrees hregular hbracket hagrees]
      | varying program => cases hagrees

end Constant

namespace Expr

/-- No number is negative zero, and the parts of brackets can be read. -/
def Readable {kind : Kind} : Expr kind → Prop
  | var _ => True
  | number _ value => value ≠ negZero
  | bracket _ x y => (x.Readable ∧ y.Readable) ∧ (∃ left, x.ReadsPart left) ∧
      ∃ right, y.ReadsPart right
  | abs e => e.Readable
  | re e => e.Readable
  | im e => e.Readable
  | binary _ left right => left.Readable ∧ right.Readable

theorem readable_unary {op : UnaryOp} {e : Expr op.operandKind} :
    (Expr.unary op e).Readable ↔ e.Readable := by
  cases op <;> rfl

variable {kind : Kind} {e : Expr kind} {text : Text} {p q : Pool}

theorem Simple.readable {excluded : Text} (hminus : '-' ∈ excluded)
    (h : Simple excluded kind text e) : e.Readable := by
  cases h with
  | var v => trivial
  | number slot hchars hvalue =>
    exact (Numeral.unsigned_of_float? (fun hmem ↦ hchars '-' hmem hminus) hvalue).ne_negZero

theorem ReadsPart.readable (h : e.ReadsPart text) : e.Readable :=
  h.forall_expr (fun _ _ he ↦ readable_unary.2 he) (fun _ _ _ _ hl hr ↦ ⟨hl, hr⟩)
    fun _ _ _ h ↦ h.readable (by decide)

theorem Reads.readable (h : e.Reads text) : e.Readable := by
  refine h.forall_expr (fun _ _ he ↦ readable_unary.2 he) (fun _ _ _ _ hl hr ↦ ⟨hl, hr⟩) ?_
  intro kind text e h
  cases h with
  | simple h => exact h.readable (by decide)
  | bracket slot hx hy => exact ⟨⟨hx.readable, hy.readable⟩, ⟨_, hx⟩, _, hy⟩

theorem Faithful.mono (hp : p.Regular) (hpq : p.Extends q) (h : e.Faithful p) : e.Faithful q := by
  induction e with
  | var v => trivial
  | number slot value => exact hpq.reals h
  | bracket slot x y ihx ihy =>
    exact ⟨ihx h.1, ihy h.2.1, fun b env hb ↦ hp.pointAt_mono hpq hb (h.2.2 b env hb)⟩
  | abs e ih => exact ih h
  | re e ih => exact ih h
  | im e ih => exact ih h
  | binary op left right ihl ihr => exact ⟨ihl h.1, ihr h.2⟩

/-- Interning gives every number and every bracket a slot that holds its value. -/
theorem Interns.faithful (h : e.Interns p q) (he : e.Readable) (hp : p.Regular) :
    q.Regular ∧ e.Faithful q := by
  induction e generalizing p q with
  | var v =>
    rw [h]
    exact ⟨hp, trivial⟩
  | number slot value => exact hp.internReal he h
  | bracket slot x y ihx ihy =>
    obtain ⟨p₁, p₂, whole, c, hx, hy, hc, hslot⟩ := h
    obtain ⟨⟨hxe, hye⟩, ⟨left, hxr⟩, right, hyr⟩ := he
    obtain ⟨hp₁, hfx⟩ := ihx hx hxe hp
    obtain ⟨hp₂, hfy⟩ := ihy hy hye hp₁
    -- the constant is worked out when both parts have been interned, and interned after that
    have hfx := hfx.mono hp₁ hy.extends
    rw [Constant.ofParts_eq hfx hfy hxr.flat hyr.flat] at hc
    cases hc
    have hq := hp₂.internComplex (Constant.regular_ofBracket hfx hfy hxr hyr) hslot
    have hpq := Pool.extends_of_internComplex hslot
    have hfx := hfx.mono hp₂ hpq
    have hfy := hfy.mono hp₂ hpq
    obtain ⟨complexes, hintern, rfl⟩ := Pool.internComplex_eq_ok_iff.1 hslot
    obtain ⟨d, hd, hdc⟩ := Slots.get?_slot_of_intern hintern
    exact ⟨hq, hfx, hfy, fun b env ↦ Constant.pointAt_of_agrees hfx hfy hxr hyr hq hd hdc⟩
  | abs e ih => exact ih h he hp
  | re e ih => exact ih h he hp
  | im e ih => exact ih h he hp
  | binary op left right ihl ihr =>
    obtain ⟨p₁, hl, hr⟩ := h
    obtain ⟨hp₁, hfl⟩ := ihl hl he.1 hp
    obtain ⟨hq, hfr⟩ := ihr hr he.2 hp₁
    exact ⟨hq, hfl.mono hp₁ hr.extends, hfr⟩

theorem Faithful.value_program {e : Expr .complex} (h : e.Faithful p) (hp : e.Ready p)
    {b : Bindings} {env : Variable → Point} (hb : b.Gives env) :
    e.program.value p b = .ok (e.value env) := by
  obtain ⟨z, known, hz, hrun⟩ :=
    run_program hp.sound hp.stored (fun i _ ↦ i.bound_of_forall hb.isSome) []
  rw [Pool.pointGiven_nil, h.yield_eq hb] at hz
  obtain rfl := Option.some.inj hz
  rw [Program.value, Program.evaluate_of_run (hrun [] [])]

end Expr

/-! ## Recurrences -/

/-- A program realizes the expression of a text: all numbers and brackets of the expression are in
their slots, and the program computes what the text stands for. -/
structure Program.Realizes (pool : Pool) (text : Text) (e : Expr .complex) (program : Program) :
    Prop where
  /-- The text stands for the expression. -/
  reads : e.Reads text
  /-- The program is that of the expression. -/
  eq_program : program = e.program
  /-- Every slot of the expression holds what it should. -/
  faithful : e.Faithful pool
  /-- Whichever expression the text stands for, the program computes its value. -/
  value_eq : ∀ e' : Expr .complex, e'.Reads text → ∀ b env, b.Gives env →
    program.value pool b = .ok (e'.value env)

theorem Expr.Faithful.realizes {pool : Pool} {text : Text} {e : Expr .complex}
    (h : e.Faithful pool) (hready : e.Ready pool) (hreads : e.Reads text) :
    e.program.Realizes pool text e := by
  refine ⟨hreads, rfl, h, fun e' hreads' b env hb ↦ ?_⟩
  have hsame : e.unslotted = e'.unslotted := operand_inj.1 (hreads.operand_eq hreads')
  rw [h.value_program hready hb, ← e.value_unslotted, hsame, e'.value_unslotted]

/-- The programs of a recurrence realize its terms, so that sharing slots never shows: the numbers
and brackets of both terms are interned one after the other into the pool of the recurrence, which
has no negative zero in it, and in that pool each number is in its slot and each bracket yields the
point of its parts. -/
theorem faithful_of_read {raw : Text} {r : Recurrence} (h : Recurrence.read raw = .ok r) :
    ∃ (first next : Text) (e₁ e₂ : Expr .complex) (p : Pool),
      Token.splitTerms raw = .ok (first, next) ∧ e₁.Interns {} p ∧ e₂.Interns p r.pool ∧
        r.pool.Regular ∧ r.first.Realizes r.pool first e₁ ∧ r.next.Realizes r.pool next e₂ := by
  obtain ⟨first, next, e₁, e₂, p, q, htext, hfirst, hnext, -, -, hreads₁, hreads₂, hintern₁,
    hintern₂, rfl⟩ := Recurrence.read_eq_ok_iff.1 h
  obtain ⟨hp, hfaithful₁⟩ := hintern₁.faithful hreads₁.readable Pool.regular_empty
  obtain ⟨hq, hfaithful₂⟩ := hintern₂.faithful hreads₂.readable hp
  obtain ⟨hready₁, hready₂⟩ :=
    Expr.ready_of_interns hreads₁.shallow hreads₂.shallow hintern₁ hintern₂
  exact ⟨first, next, e₁, e₂, p, Token.splitTerms_eq_ok_iff.2 ⟨htext, hfirst, hnext⟩, hintern₁,
    hintern₂, hq, (hfaithful₁.mono hp hintern₂.extends).realizes hready₁ hreads₁,
    hfaithful₂.realizes hready₂ hreads₂⟩

/-- A number and a bracket that are spelled differently share their slots. -/
theorem faithful_of_read_of_shared : ∃ r e₁ e₂,
    Recurrence.read "c;[1,rp]*[1.0,rp]".toList = .ok r ∧
      r.pool.reals.size = 1 ∧ r.pool.complexes.size = 1 ∧ r.pool.Regular ∧
      r.first.Realizes r.pool ['c'] e₁ ∧ r.next.Realizes r.pool "[1,rp]*[1.0,rp]".toList e₂ := by
  have hsizes : (Recurrence.read "c;[1,rp]*[1.0,rp]".toList).toOption.map
      (fun r ↦ (r.pool.reals.size, r.pool.complexes.size)) = some (1, 1) := by decide +kernel
  cases hread : Recurrence.read "c;[1,rp]*[1.0,rp]".toList with
  | error e => rw [hread] at hsizes; cases hsizes
  | ok r =>
    rw [hread] at hsizes
    obtain ⟨hreals, hcomplexes⟩ := Prod.mk.inj (Option.some.inj hsizes)
    obtain ⟨first, next, e₁, e₂, p, hsplit, -, -, hregular, hfirst, hnext⟩ :=
      faithful_of_read hread
    have hterms : Token.splitTerms "c;[1,rp]*[1.0,rp]".toList =
        .ok (['c'], "[1,rp]*[1.0,rp]".toList) :=
      Token.splitTerms_eq_ok_iff.2 ⟨rfl, by decide, by decide⟩
    cases hterms.symm.trans hsplit
    exact ⟨r, e₁, e₂, rfl, hreals, hcomplexes, hregular, hfirst, hnext⟩

end OrbitPlot
