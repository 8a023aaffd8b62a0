import OrbitPlot.Proofs.Numeral.Exponent
import OrbitPlot.Proofs.Recurrence.Acceptance

/-!
# Sources that are formulas

A recurrence keeps the sources of its two terms, with every number in normal form. With a semicolon
between them, they are a formula again if no number has a minus in its text: for such a minus would
be taken for a difference, and the number before it would break off.

If they are a formula, it is that of the same recurrence. The terms stand for the same expressions
as the text that was read, so the same constants are interned in the same order, and fall into the
same slots.

## Main statements

* `Expr.Reads.source`: a source stands for the expression that it is the source of.
* `read_source_of_read`: what is read from the sources of a recurrence is the recurrence.
-/

namespace OrbitPlot

open Double

/-! ## Texts of numbers -/

namespace Numeral

/-- There is nothing in the text of a number but digits, the point and the letter of an exponent. -/
def IsPlain (x : Float) : Prop := ∀ c ∈ plain.float x, c.isDigit ∨ c = '.' ∨ c = 'e'

theorem isPlain {x : Float} (hx : Unsigned x) (h : x == 0 ∨ x.isFinite ∧ 1e-4 ≤ x) : IsPlain x := by
  have hminus : '-' ∉ plain.float x := not_mem_float hx (h.imp_right And.right)
  have hnan : x.isNaN = false := by
    refine Bool.eq_false_iff.2 fun hnan ↦ ?_
    rw [eq_of_isNaN hnan] at h
    exact absurd h (by decide +kernel)
  have hfloat : plain.float x = plain.magnitude x := by
    rw [Layout.float, if_neg (Bool.eq_false_iff.1 hnan),
      if_pos (congrArg _ (abs_eq_self hx).symm)]
  unfold IsPlain
  rw [hfloat] at hminus ⊢
  rcases magnitude_cases plain hx hnan with ⟨hinf, -⟩ | ⟨d, hspells, -⟩
  · rw [hinf] at h
    exact absurd h (by decide +kernel)
  · obtain ⟨front, tail, htext, hfront, htail⟩ := hspells.exists_append
    rw [htext] at hminus ⊢
    refine List.forall_mem_append.2 ⟨fun c hc ↦ (hfront c hc).imp_right .inl, ?_⟩
    rcases htail with rfl | ⟨sign, digits, rfl, rfl | rfl, -, hdigits⟩
    · nofun
    · exact List.forall_mem_cons.2 ⟨.inr (.inr rfl), fun c hc ↦ .inl (hdigits c hc)⟩
    · simp at hminus

end Numeral

/-! ## Sources of expressions -/

namespace Expr

theorem numbers_unary {op : UnaryOp} {e : Expr op.operandKind} :
    (Expr.unary op e).numbers = e.numbers := by
  cases op <;> rfl

variable {kind : Kind} {e : Expr kind} {text : Text}

theorem numbers_unslotted (e : Expr kind) : e.unslotted.numbers = e.numbers := by
  induction e with
  | var v => rfl
  | number slot value => rfl
  | bracket slot x y ihx ihy => rw [unslotted, numbers, numbers, ihx, ihy]
  | abs e ih => exact ih
  | re e ih => exact ih
  | im e ih => exact ih
  | binary op left right ihl ihr => rw [unslotted, numbers, numbers, ihl, ihr]

theorem Reads.unsigned (h : e.Reads text) : ∀ x ∈ e.numbers, Unsigned x := by
  have hunary (op : UnaryOp) (e : Expr op.operandKind) (he : ∀ x ∈ e.numbers, Unsigned x) :
      ∀ x ∈ (Expr.unary op e).numbers, Unsigned x := numbers_unary (e := e) ▸ he
  have hbinary (op : BinaryOp) (kind : Kind) (l r : Expr kind)
      (hl : ∀ x ∈ l.numbers, Unsigned x) (hr : ∀ x ∈ r.numbers, Unsigned x) :
      ∀ x ∈ (Expr.binary op l r).numbers, Unsigned x := List.forall_mem_append.2 ⟨hl, hr⟩
  have hsimple {excluded : Text} (hminus : '-' ∈ excluded) {kind : Kind} {text : Text}
      {e : Expr kind} (h : Simple excluded kind text e) : ∀ x ∈ e.numbers, Unsigned x := by
    cases h with
    | var v => nofun
    | number slot hchars hvalue =>
      exact List.forall_mem_singleton.2
        (Numeral.unsigned_of_float? (fun hmem ↦ hchars '-' hmem hminus) hvalue)
  have hpart {text : Text} {x : Expr .real} (h : x.ReadsPart text) :
      ∀ y ∈ x.numbers, Unsigned y :=
    h.forall_expr hunary hbinary fun _ _ _ h ↦ hsimple (by decide) h
  refine h.forall_expr hunary hbinary fun kind text e h ↦ ?_
  cases h with
  | simple h => exact hsimple (by decide) h
  | bracket slot hx hy => exact List.forall_mem_append.2 ⟨hpart hx, hpart hy⟩

/-- What is spelled as its source where it is an atom is so everywhere. -/
theorem source_of_derives {P : Float → Prop} {atom : ∀ kind, Text → Expr kind → Prop}
    (hatom : ∀ kind text (e : Expr kind), atom kind text e → (∀ x ∈ e.numbers, P x) →
      atom kind e.source e)
    {g : Grade} (h : Derives Text.alphabet atom g text e) (hnumbers : ∀ x ∈ e.numbers, P x) :
    Derives Text.alphabet atom g e.source e := by
  induction h with
  | atom h => exact .atom (hatom _ _ _ h hnumbers)
  | unary _ ih =>
    rw [source_unary]
    exact .unary (ih (numbers_unary ▸ hnumbers))
  | product _ ih => exact .product (ih hnumbers)
  | mul _ _ ihl ihr =>
    obtain ⟨hl, hr⟩ := List.forall_mem_append.1 hnumbers
    exact .mul (ihl hl) (ihr hr)
  | sum _ ih => exact .sum (ih hnumbers)
  | additive hop _ _ ihl ihr =>
    obtain ⟨hl, hr⟩ := List.forall_mem_append.1 hnumbers
    exact .additive hop (ihl hl) (ihr hr)

/-- A plain number may be written in normal form wherever operators and brackets may not occur. -/
theorem Simple.source {excluded : Text}
    (hexcluded : ∀ c ∈ excluded, ¬(c.isDigit ∨ c = '.' ∨ c = 'e'))
    (h : Simple excluded kind text e) (hplain : ∀ x ∈ e.numbers, Numeral.IsPlain x) :
    Simple excluded kind e.source e := by
  cases h with
  | var v => exact .var v
  | @number _ value slot hchars hvalue =>
    refine .number slot (fun c hc hmem ↦ ?_) (Numeral.float?_float _ value)
    exact hexcluded c hmem (hplain value List.mem_cons_self c hc)

theorem ReadsPart.source {x : Expr .real} (h : x.ReadsPart text)
    (hplain : ∀ y ∈ x.numbers, Numeral.IsPlain y) : x.ReadsPart x.source :=
  source_of_derives (fun _ _ _ h ↦ h.source (by simp [Text.reserved])) h hplain

theorem Reads.source (h : e.Reads text) (hplain : ∀ x ∈ e.numbers, Numeral.IsPlain x) :
    e.Reads e.source := by
  refine source_of_derives (fun kind text e h hplain ↦ ?_) h hplain
  cases h with
  | simple h => exact .simple (h.source (by simp [Text.reserved]) hplain)
  | bracket slot hx hy =>
    obtain ⟨hl, hr⟩ := List.forall_mem_append.1 hplain
    exact .bracket slot (hx.source hl) (hy.source hr)

theorem not_mem_source (hplain : ∀ x ∈ e.numbers, Numeral.IsPlain x) : ';' ∉ e.source := by
  induction e with
  | var v => cases v <;> decide
  | number slot value =>
    exact fun hmem ↦ absurd (hplain value List.mem_cons_self ';' hmem) (by decide)
  | bracket slot x y ihx ihy =>
    obtain ⟨hx, hy⟩ := List.forall_mem_append.1 hplain
    simp [source, bracketText, ihx hx, ihy hy]
  | abs e ih | re e ih | im e ih => exact List.not_mem_cons_of_ne_of_not_mem (by decide) (ih hplain)
  | binary op left right ihl ihr =>
    obtain ⟨hl, hr⟩ := List.forall_mem_append.1 hplain
    have hop : ';' ≠ op.char := by cases op <;> decide
    simp [source, hop, ihl hl, ihr hr]

theorem Reads.char_mem_source_iff (h : e.Reads text)
    (hplain : ∀ x ∈ e.numbers, Numeral.IsPlain x) (v : Variable) :
    v.char ∈ e.source ↔ v.char ∈ text :=
  (h.source hplain).mentions_iff.symm.trans h.mentions_iff

theorem Faithful.mem_numbers {pool : Pool} (h : e.Faithful pool) :
    ∀ x ∈ e.numbers, x ∈ pool.numbers := by
  induction e with
  | var v => nofun
  | number slot value =>
    refine List.forall_mem_singleton.2 (List.mem_iff_getElem?.2 ⟨slot, ?_⟩)
    exact (Array.getElem?_toList ..).trans h
  | bracket slot x y ihx ihy => exact List.forall_mem_append.2 ⟨ihx h.1, ihy h.2.1⟩
  | abs e ih | re e ih | im e ih => exact ih h
  | binary op left right ihl ihr => exact List.forall_mem_append.2 ⟨ihl h.1, ihr h.2⟩

theorem Reads.numbers_eq {e' : Expr kind} (h : e.Reads text) (h' : e'.Reads text) :
    e.numbers = e'.numbers := by
  rw [← numbers_unslotted, operand_inj.1 (h.operand_eq h'), numbers_unslotted]

end Expr

/-! ## Recurrences -/

/-- A number occurs in one of the two terms of a text. -/
def Text.HasNumber (text : Text) (x : Float) : Prop :=
  ∃ first next : Text, Token.splitTerms text = .ok (first, next) ∧
    ∃ e : Expr .complex, (e.Reads first ∨ e.Reads next) ∧ x ∈ e.numbers

namespace Recurrence

variable {raw : Text} {r : Recurrence}

/-- The sources of both terms, as a formula is written. -/
def source (r : Recurrence) : Text := r.first.source ++ ';' :: r.next.source

theorem mem_numbers_of_read (h : read raw = .ok r) {x : Float} (hx : raw.HasNumber x) :
    x ∈ r.pool.numbers := by
  obtain ⟨first, next, hsplit, e, he, hmem⟩ := hx
  obtain ⟨_, _, e₁, e₂, -, hsplit', -, -, -, hfirst, hnext⟩ := faithful_of_read h
  cases hsplit.symm.trans hsplit'
  rcases he with he | he
  · exact hfirst.faithful.mem_numbers x (he.numbers_eq hfirst.reads ▸ hmem)
  · exact hnext.faithful.mem_numbers x (he.numbers_eq hnext.reads ▸ hmem)

end Recurrence

/-- **Sources are faithful.** If all numbers of a formula are zero, or finite and not below a
ten-thousandth, then the sources of its terms are a formula with the same recurrence: it has the
same sources, instructions and start, and the same constants in the same slots. -/
theorem read_source_of_read {raw : Text} {r : Recurrence} (h : Recurrence.read raw = .ok r)
    (hnumbers : ∀ x, raw.HasNumber x → x == 0 ∨ x.isFinite ∧ 1e-4 ≤ x) :
    Recurrence.read r.source = .ok r := by
  obtain ⟨first, next, e₁, e₂, p, q, htext, hfirst, hnext, hf, hp, hreads₁, hreads₂, hintern₁,
    hintern₂, rfl⟩ := Recurrence.read_eq_ok_iff.1 h
  have hsplit := Token.splitTerms_eq_ok_iff.2 ⟨htext, hfirst, hnext⟩
  have hplain₁ : ∀ x ∈ e₁.numbers, Numeral.IsPlain x := fun x hx ↦
    Numeral.isPlain (hreads₁.unsigned x hx) (hnumbers x ⟨_, _, hsplit, e₁, .inl hreads₁, hx⟩)
  have hplain₂ : ∀ x ∈ e₂.numbers, Numeral.IsPlain x := fun x hx ↦
    Numeral.isPlain (hreads₂.unsigned x hx) (hnumbers x ⟨_, _, hsplit, e₂, .inr hreads₂, hx⟩)
  exact Recurrence.read_eq_ok_iff.2 ⟨e₁.source, e₂.source, e₁, e₂, p, q, rfl,
    Expr.not_mem_source hplain₁, Expr.not_mem_source hplain₂,
    mt (hreads₁.char_mem_source_iff hplain₁ .first).1 hf,
    mt (hreads₁.char_mem_source_iff hplain₁ .previous).1 hp,
    hreads₁.source hplain₁, hreads₂.source hplain₂, hintern₁, hintern₂, rfl⟩

/-- The numbers `2.50` and `02.5` share a slot, and both are `2.5` in the sources. -/
theorem read_source_of_read_of_shared : ∃ r,
    Recurrence.read "[0,2.50];[0.0001,1e16]*p+[02.5,rp]".toList = .ok r ∧
      r.source = "[0.0,2.5];[0.0001,1e16]*p+[2.5,rp]".toList ∧ r.pool.reals.size = 4 ∧
      Recurrence.read r.source = .ok r := by
  have hread : (Recurrence.read "[0,2.50];[0.0001,1e16]*p+[02.5,rp]".toList).toOption.map
      (fun r ↦ (r.source, r.pool.reals.size, r.pool.numbers.all
        fun x ↦ x == 0 || x.isFinite && (1e-4 : Float) ≤ x)) =
      some ("[0.0,2.5];[0.0001,1e16]*p+[2.5,rp]".toList, 4, true) := by decide +kernel
  obtain ⟨r, hr, hparts⟩ := Except.exists_of_map_toOption_eq_some hread
  obtain ⟨hsource, hrest⟩ := Prod.mk.inj hparts
  obtain ⟨hsize, hall⟩ := Prod.mk.inj hrest
  refine ⟨r, hr, hsource, hsize, read_source_of_read hr fun x hx ↦ ?_⟩
  simpa using List.all_eq_true.1 hall x (Recurrence.mem_numbers_of_read hr hx)

/-- Below a ten-thousandth, numbers have a minus in their texts, and sources need not be formulas:
a hundred-thousandth is not enough. -/
theorem exists_read_source_ne : ∃ r,
    Recurrence.read "c;[0.00005,1]".toList = .ok r ∧
      (∀ x, Text.HasNumber "c;[0.00005,1]".toList x → x == 0 ∨ x.isFinite ∧ 1e-5 ≤ x) ∧
      r.source = "c;[5e-5,1.0]".toList ∧ Recurrence.read r.source ≠ .ok r := by
  have hread : (Recurrence.read "c;[0.00005,1]".toList).toOption.map
      (fun r ↦ (r.source, r.pool.numbers.all
        fun x ↦ x == 0 || x.isFinite && (1e-5 : Float) ≤ x)) =
      some ("c;[5e-5,1.0]".toList, true) := by decide +kernel
  have hsource : (Recurrence.read "c;[5e-5,1.0]".toList).toOption.isNone := by decide +kernel
  obtain ⟨r, hr, hparts⟩ := Except.exists_of_map_toOption_eq_some hread
  obtain ⟨htext, hall⟩ := Prod.mk.inj hparts
  refine ⟨r, hr, fun x hx ↦ ?_, htext, fun hagain ↦ ?_⟩
  · simpa using List.all_eq_true.1 hall x (Recurrence.mem_numbers_of_read hr hx)
  · rw [← htext, hagain] at hsource
    cases hsource

end OrbitPlot
