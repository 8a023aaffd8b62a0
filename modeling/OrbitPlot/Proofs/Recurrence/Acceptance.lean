import OrbitPlot.Proofs.Recurrence.Sharing

/-!
# Which texts are recurrences

A text is a recurrence if the grammar reads both of its terms and there are slots enough for their
numbers and brackets. How many slots are needed can be told from the expressions alone: numbers take
one slot for each that is equal to none before it, and so do brackets, which are told apart by their
values if no variable occurs in them and by their sources otherwise.

## Main statements

* `Expr.Interns.adds`: what interning an expression adds to a pool.
* `Expr.exists_interns`: an expression can be interned, with suitable slots, if its numbers and
  brackets do not need too many.
* `read_ok_iff_isFormula`: which texts are recurrences.
-/

namespace OrbitPlot

open Double

/-! ## Telling constants apart -/

namespace Constant

/-- What a constant is told apart from others by: its value if it is fixed, else its source. -/
def tag : Constant → Point ⊕ Text
  | fixed z => .inl z
  | varying program => .inr program.source

/-- Fixed numbers agree by value and varying ones by their spelling. -/
def tagsAgree : Point ⊕ Text → Point ⊕ Text → Bool
  | .inl z, .inl w => z.agrees w
  | .inr text, .inr text' => text = text'
  | _, _ => false

theorem tagsAgree_tag (c d : Constant) : tagsAgree c.tag d.tag = c.agrees d := by
  cases c <;> cases d <;> rfl

end Constant

namespace Expr

/-- The numbers of an expression in the order of its text. -/
def numbers {kind : Kind} : Expr kind → List Float
  | var _ => []
  | number _ value => [value]
  | bracket _ x y => x.numbers ++ y.numbers
  | abs e => e.numbers
  | re e => e.numbers
  | im e => e.numbers
  | binary _ left right => left.numbers ++ right.numbers

/-- The brackets of an expression in the order of their ends, as far as they are told apart. -/
def brackets {kind : Kind} : Expr kind → List (Point ⊕ Text)
  | var _ => []
  | number _ _ => []
  | bracket _ x y => x.brackets ++ y.brackets ++ [(Constant.ofBracket x y).tag]
  | abs e => e.brackets
  | re e => e.brackets
  | im e => e.brackets
  | binary _ left right => left.brackets ++ right.brackets

theorem tag_ofBracket_unslotted (x y : Expr .real) :
    (Constant.ofBracket x.unslotted y.unslotted).tag = (Constant.ofBracket x y).tag := by
  unfold Constant.ofBracket
  rw [varies_unslotted, varies_unslotted]
  split
  · rw [Constant.tag, Constant.tag, Program.bracket, source_unslotted, source_unslotted]
    rfl
  · rw [value_unslotted, value_unslotted]

end Expr

/-! ## What interning adds -/

namespace Pool

/-- The real numbers in the pool. -/
def numbers (pool : Pool) : List Float := pool.reals.items.toList

/-- What the complex numbers in the pool are told apart by. -/
def tags (pool : Pool) : List (Point ⊕ Text) := pool.complexes.items.toList.map Constant.tag

/-- What is in a pool when some more numbers and brackets have been interned. -/
structure Adds (p : Pool) (xs : List Float) (ts : List (Point ⊕ Text)) (q : Pool) : Prop where
  /-- Numbers that are equal to none before them have been added. -/
  numbers : q.numbers = xs.foldl (Slots.keep (· == ·)) p.numbers
  /-- Brackets that are not told apart have been added once. -/
  tags : q.tags = ts.foldl (Slots.keep Constant.tagsAgree) p.tags

/-- There are slots enough for some more numbers and brackets. -/
structure Fits (p : Pool) (xs : List Float) (ts : List (Point ⊕ Text)) : Prop where
  /-- For the numbers. -/
  numbers : (xs.foldl (Slots.keep (· == ·)) p.numbers).length ≤ capacity
  /-- For the brackets. -/
  tags : (ts.foldl (Slots.keep Constant.tagsAgree) p.tags).length ≤ capacity

variable {p q r : Pool} {slot : Nat} {xs ys : List Float} {ts us : List (Point ⊕ Text)}

theorem Adds.refl (p : Pool) : p.Adds [] [] p := ⟨rfl, rfl⟩

theorem Adds.append (h : p.Adds xs ts q) (h' : q.Adds ys us r) :
    p.Adds (xs ++ ys) (ts ++ us) r := by
  constructor
  · rw [h'.numbers, h.numbers, List.foldl_append]
  · rw [h'.tags, h.tags, List.foldl_append]

theorem Adds.fits (h : p.Adds xs ts q) : p.Fits xs ts := by
  constructor
  · rw [← h.numbers]
    exact q.reals.size_le
  · rw [← h.tags, Pool.tags, List.length_map]
    exact q.complexes.size_le

theorem Fits.left (h : p.Fits (xs ++ ys) (ts ++ us)) : p.Fits xs ts := by
  refine ⟨Nat.le_trans ?_ h.numbers, Nat.le_trans ?_ h.tags⟩
  · rw [List.foldl_append]
    exact Slots.length_le_foldl_keep _ _
  · rw [List.foldl_append]
    exact Slots.length_le_foldl_keep _ _

theorem Fits.right (h : p.Fits (xs ++ ys) (ts ++ us)) (hadds : p.Adds xs ts q) :
    q.Fits ys us := by
  constructor
  · rw [hadds.numbers, ← List.foldl_append]
    exact h.numbers
  · rw [hadds.tags, ← List.foldl_append]
    exact h.tags

theorem adds_of_internReal {x : Float} (h : internReal x p = .ok slot q) : p.Adds [x] [] q := by
  obtain ⟨reals, hintern, rfl⟩ := internReal_eq_ok_iff.1 h
  exact ⟨Slots.toList_of_intern hintern, rfl⟩

theorem adds_of_internComplex {c : Constant} (h : internComplex c p = .ok slot q) :
    p.Adds [] [c.tag] q := by
  obtain ⟨complexes, hintern, rfl⟩ := internComplex_eq_ok_iff.1 h
  refine ⟨rfl, ?_⟩
  rw [tags, Slots.toList_of_intern hintern, Slots.map_keep Constant.tagsAgree_tag]
  rfl

theorem Fits.exists_internReal {x : Float} (h : p.Fits [x] []) :
    ∃ slot q, internReal x p = .ok slot q := by
  obtain ⟨slot, reals, hintern⟩ := Slots.exists_intern h.numbers
  exact ⟨slot, _, internReal_eq_ok_iff.2 ⟨reals, hintern, rfl⟩⟩

theorem Fits.exists_internComplex {c : Constant} (h : p.Fits [] [c.tag]) :
    ∃ slot q, internComplex c p = .ok slot q := by
  have hlength : (Slots.keep Constant.agrees p.complexes.items.toList c).length ≤ capacity := by
    rw [← List.length_map Constant.tag, Slots.map_keep Constant.tagsAgree_tag]
    exact h.tags
  obtain ⟨slot, complexes, hintern⟩ := Slots.exists_intern hlength
  exact ⟨slot, _, internComplex_eq_ok_iff.2 ⟨complexes, hintern, rfl⟩⟩

end Pool

namespace Expr

variable {kind : Kind} {e : Expr kind} {p q : Pool}

theorem Interns.adds (h : e.Interns p q) (he : e.Readable) (hp : p.Regular) :
    p.Adds e.numbers e.brackets q := by
  induction e generalizing p q with
  | var v =>
    rw [h]
    exact .refl p
  | number slot value => exact Pool.adds_of_internReal h
  | bracket slot x y ihx ihy =>
    obtain ⟨p₁, p₂, whole, c, hx, hy, hc, hslot⟩ := h
    obtain ⟨⟨hxe, hye⟩, ⟨left, hxr⟩, right, hyr⟩ := he
    obtain ⟨hp₁, hfx⟩ := hx.faithful hxe hp
    obtain ⟨-, hfy⟩ := hy.faithful hye hp₁
    rw [Constant.ofParts_eq (hfx.mono hp₁ hy.extends) hfy hxr.flat hyr.flat] at hc
    cases hc
    rw [numbers, ← List.append_nil (x.numbers ++ y.numbers), brackets]
    exact ((ihx hx hxe hp).append (ihy hy hye hp₁)).append (Pool.adds_of_internComplex hslot)
  | abs e ih => exact ih h he hp
  | re e ih => exact ih h he hp
  | im e ih => exact ih h he hp
  | binary op left right ihl ihr =>
    obtain ⟨p₁, hl, hr⟩ := h
    exact (ihl hl he.1 hp).append (ihr hr he.2 (hl.faithful he.1 hp).1)

/-- If there are slots enough, an expression can be interned when it is given the right ones. -/
theorem exists_interns (he : e.Readable) (hp : p.Regular) (hfits : p.Fits e.numbers e.brackets) :
    ∃ (e' : Expr kind) (q : Pool), e'.unslotted = e.unslotted ∧ e'.Readable ∧ e'.Interns p q ∧
      p.Adds e.numbers e.brackets q := by
  induction e generalizing p with
  | var v => exact ⟨var v, p, rfl, trivial, rfl, .refl p⟩
  | number slot value =>
    obtain ⟨slot', q, h⟩ := hfits.exists_internReal
    exact ⟨number slot' value, q, rfl, he, h, Pool.adds_of_internReal h⟩
  | bracket slot x y ihx ihy =>
    obtain ⟨⟨hxe, hye⟩, ⟨left, hxr⟩, right, hyr⟩ := he
    rw [numbers, ← List.append_nil (x.numbers ++ y.numbers), brackets] at hfits ⊢
    obtain ⟨x', p₁, hxsame, hxe', hx, hxadds⟩ := ihx hxe hp hfits.left.left
    obtain ⟨hp₁, hfx⟩ := hx.faithful hxe' hp
    obtain ⟨y', p₂, hysame, hye', hy, hyadds⟩ := ihy hye hp₁ (hfits.left.right hxadds)
    obtain ⟨-, hfy⟩ := hy.faithful hye' hp₁
    -- the parts have other slots now, which shows neither in their texts nor in what the bracket is
    -- told apart by
    have hxr' := hxr.of_unslotted_eq hxsame
    have hyr' := hyr.of_unslotted_eq hysame
    have hc : Constant.ofParts p₂ [] x' y' = .ok (Constant.ofBracket x' y') :=
      Constant.ofParts_eq (hfx.mono hp₁ hy.extends) hfy hxr'.flat hyr'.flat
    have hslots := hfits.right (hxadds.append hyadds)
    rw [← tag_ofBracket_unslotted, ← hxsame, ← hysame, tag_ofBracket_unslotted] at hslots ⊢
    obtain ⟨slot', q, hslot⟩ := hslots.exists_internComplex
    refine ⟨bracket slot' x' y', q, ?_, ⟨⟨hxe', hye'⟩, ⟨left, hxr'⟩, right, hyr'⟩,
      ⟨p₁, p₂, [], _, hx, hy, hc, hslot⟩,
      (hxadds.append hyadds).append (Pool.adds_of_internComplex hslot)⟩
    rw [unslotted, unslotted, hxsame, hysame]
  | abs e ih =>
    obtain ⟨e', q, hsame, he', h, hadds⟩ := ih he hp hfits
    exact ⟨abs e', q, congrArg abs hsame, he', h, hadds⟩
  | re e ih =>
    obtain ⟨e', q, hsame, he', h, hadds⟩ := ih he hp hfits
    exact ⟨re e', q, congrArg re hsame, he', h, hadds⟩
  | im e ih =>
    obtain ⟨e', q, hsame, he', h, hadds⟩ := ih he hp hfits
    exact ⟨im e', q, congrArg im hsame, he', h, hadds⟩
  | binary op left right ihl ihr =>
    obtain ⟨l, p₁, hlsame, hle, hl, hladds⟩ := ihl he.1 hp hfits.left
    obtain ⟨r, q, hrsame, hre, hr, hradds⟩ :=
      ihr he.2 (hl.faithful hle hp).1 (hfits.right hladds)
    refine ⟨binary op l r, q, ?_, ⟨hle, hre⟩, ⟨p₁, hl, hr⟩, hladds.append hradds⟩
    rw [unslotted, unslotted, hlsame, hrsame]

end Expr

/-! ## Formulas -/

/-- A text is a formula if there is one semicolon in it, before which neither of the letters of
later values occurs, if the grammar reads a complex expression on either side, and if the numbers
and the brackets of the two, each kind of them counted without repetitions, are no more than there
are slots. -/
def Text.IsFormula (text : Text) : Prop :=
  ∃ (first next : Text) (e₁ e₂ : Expr .complex),
    text = first ++ ';' :: next ∧ ';' ∉ first ∧ ';' ∉ next ∧ 'f' ∉ first ∧ 'p' ∉ first ∧
      e₁.Reads first ∧ e₂.Reads next ∧
      (Slots.distinct (· == ·) (e₁.numbers ++ e₂.numbers)).length ≤ capacity ∧
      (Slots.distinct Constant.tagsAgree (e₁.brackets ++ e₂.brackets)).length ≤ capacity

theorem isFormula_of_read {text : Text} {r : Recurrence} (h : Recurrence.read text = .ok r) :
    text.IsFormula := by
  obtain ⟨first, next, e₁, e₂, p, q, htext, hfirst, hnext, hf, hp, hreads₁, hreads₂, hintern₁,
    hintern₂, -⟩ := Recurrence.read_eq_ok_iff.1 h
  have hregular := (hintern₁.faithful hreads₁.readable Pool.regular_empty).1
  have hfits := ((hintern₁.adds hreads₁.readable Pool.regular_empty).append
    (hintern₂.adds hreads₂.readable hregular)).fits
  refine ⟨first, next, e₁, e₂, htext, hfirst, hnext, hf, hp, hreads₁, hreads₂, ?_, ?_⟩
  · rw [Slots.distinct_eq_foldl]
    exact hfits.numbers
  · rw [Slots.distinct_eq_foldl]
    exact hfits.tags

theorem Text.IsFormula.exists_read {text : Text} (h : text.IsFormula) :
    ∃ r, Recurrence.read text = .ok r := by
  obtain ⟨first, next, e₁, e₂, htext, hfirst, hnext, hf, hp, hreads₁, hreads₂, hnumbers,
    hbrackets⟩ := h
  rw [Slots.distinct_eq_foldl] at hnumbers hbrackets
  have hfits : Pool.Fits {} (e₁.numbers ++ e₂.numbers) (e₁.brackets ++ e₂.brackets) :=
    ⟨hnumbers, hbrackets⟩
  obtain ⟨e₁', p, hsame₁, hreadable, hintern₁, hadds⟩ :=
    Expr.exists_interns hreads₁.readable Pool.regular_empty hfits.left
  have hregular := (hintern₁.faithful hreadable Pool.regular_empty).1
  obtain ⟨e₂', q, hsame₂, -, hintern₂, -⟩ :=
    Expr.exists_interns hreads₂.readable hregular (hfits.right hadds)
  exact ⟨_, Recurrence.read_eq_ok_iff.2 ⟨first, next, e₁', e₂', p, q, htext, hfirst, hnext, hf,
    hp, hreads₁.of_unslotted_eq hsame₁, hreads₂.of_unslotted_eq hsame₂, hintern₁, hintern₂, rfl⟩⟩

/-- **Reading succeeds on formulas and on no other texts**, where it ends with a fault. -/
theorem read_ok_iff_isFormula (text : Text) :
    ((∃ r, Recurrence.read text = .ok r) ↔ text.IsFormula) ∧
      ((∃ e, Recurrence.read text = .error e) ↔ ¬text.IsFormula) := by
  have hok : (∃ r, Recurrence.read text = .ok r) ↔ text.IsFormula :=
    ⟨fun ⟨_, h⟩ ↦ isFormula_of_read h, Text.IsFormula.exists_read⟩
  refine ⟨hok, ?_⟩
  rw [← hok]
  cases Recurrence.read text with
  | ok r => exact ⟨nofun, fun h ↦ absurd ⟨r, rfl⟩ h⟩
  | error e => exact ⟨fun _ ↦ nofun, fun _ ↦ ⟨e, rfl⟩⟩

end OrbitPlot
