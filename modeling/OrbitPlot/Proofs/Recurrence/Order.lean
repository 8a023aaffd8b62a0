import OrbitPlot.Proofs.Program.Requests
import OrbitPlot.Proofs.Recurrence.Literals
import OrbitPlot.Proofs.Recurrence.Mentions

/-!
# Slots follow the order of the text

The constants of a formula get their slots before precedence is looked at, so the slots are in the
order of the text, however the terms are grouped: of both terms, the numbers and the brackets that
agree with none before them, the numbers of a bracket standing at its place.

What a pool holds and which slots were given out is told by the list of all that has been interned,
`Slots.InOrder`. It grows by one with each number and each bracket, and so an expression lengthens
it by its own literals.

## Main statements

* `Slots.getElem?_placeOf`: the slot of a constant holds the first constant that agrees with it.
* `Expr.Interns.inOrder`: which slots an expression gets.
* `Recurrence.exists_allots_of_read`: which slots the literals of a formula get.
-/

namespace OrbitPlot

/-! ## The first constant that agrees -/

namespace Slots

variable {α : Type} {agrees : α → α → Bool} {x z : α} {xs ys zs : List α} {s t : Slots α}
  {slot : Nat}

/-- The slot of the first constant that agrees with `x`. The slots before it belong to the constants
before it that agree with none before them. If no constant agrees, this is the slot after them
all. -/
def placeOf (agrees : α → α → Bool) (xs : List α) (x : α) : Nat :=
  (distinct agrees (xs.take (xs.findIdx (agrees · x)))).length

/-- Each constant has the slot of the first constant before it that agrees with it, or one of its
own. -/
def places (agrees : α → α → Bool) (xs : List α) : List Nat :=
  xs.mapIdx fun i x ↦ placeOf agrees (xs.take i) x

theorem distinct_concat : distinct agrees (xs ++ [x]) = keep agrees (distinct agrees xs) x := by
  rw [distinct_eq_foldl, List.foldl_append, ← distinct_eq_foldl]
  rfl

theorem places_concat : places agrees (xs ++ [x]) = places agrees xs ++ [placeOf agrees xs x] := by
  have hbefore : (xs.mapIdx fun i y ↦ placeOf agrees ((xs ++ [x]).take i) y) =
      places agrees xs := by
    refine List.mapIdx_eq_mapIdx_iff.2 fun i hi ↦ ?_
    rw [List.take_append_of_le_length hi.le]
  rw [places, List.mapIdx_concat, hbefore, List.take_left]

theorem mem_of_mem_distinct (h : x ∈ distinct agrees xs) : x ∈ xs := by
  induction xs using List.reverseRecOn with
  | nil => exact h
  | append_singleton xs y ih =>
    rw [distinct_concat, keep] at h
    split at h
    · exact List.mem_append_left _ (ih h)
    · exact (List.mem_append.1 h).elim (fun h ↦ List.mem_append_left _ (ih h))
        (List.mem_append_right _)

theorem exists_foldl_keep_eq (agrees : α → α → Bool) (kept xs : List α) :
    ∃ rest, xs.foldl (keep agrees) kept = kept ++ rest := by
  induction xs generalizing kept with
  | nil => exact ⟨[], (List.append_nil _).symm⟩
  | cons x xs ih =>
    rw [List.foldl_cons, keep]
    split
    · exact ih kept
    · obtain ⟨rest, hrest⟩ := ih (kept ++ [x])
      exact ⟨x :: rest, hrest.trans (List.append_assoc ..)⟩

section

variable (htrans : ∀ ⦃x y z⦄, agrees x y → agrees y z → agrees x z)
include htrans

/-- The first constant that agrees with `x` is not left out for another, because that one would
agree with `x`, too. -/
theorem distinct_append_cons (zs : List α) (hys : ∀ y ∈ ys, agrees y x = false) (hz : agrees z x) :
    ∃ rest, distinct agrees (ys ++ z :: zs) = distinct agrees ys ++ z :: rest := by
  have hany : ¬(distinct agrees ys).any (agrees · z) := by
    intro hany
    obtain ⟨y, hy, hagrees⟩ := List.any_eq_true.1 hany
    have hnot := hys y (mem_of_mem_distinct hy)
    rw [htrans hagrees hz] at hnot
    cases hnot
  obtain ⟨rest, hrest⟩ := exists_foldl_keep_eq agrees (distinct agrees ys ++ [z]) zs
  refine ⟨rest, ?_⟩
  rw [distinct_eq_foldl, List.foldl_append, ← distinct_eq_foldl, List.foldl_cons, keep, if_neg hany,
    hrest, List.append_assoc]
  rfl

/-- What is kept of the constants before the first one that agrees with `x` does not agree with `x`.
It is followed by that one, if there is one. -/
theorem distinct_eq_append (xs : List α) (x : α) :
    ∃ kept rest, distinct agrees xs = kept ++ rest ∧ kept.length = placeOf agrees xs x ∧
      (∀ y ∈ kept, agrees y x = false) ∧ rest.head? = xs.find? (agrees · x) := by
  cases hfind : xs.find? (agrees · x) with
  | none =>
    have hnone : ∀ y ∈ xs, agrees y x = false := fun y hy ↦
      Bool.eq_false_iff.2 (List.find?_eq_none.1 hfind y hy)
    refine ⟨distinct agrees xs, [], (List.append_nil _).symm, ?_, fun y hy ↦ ?_, rfl⟩
    · rw [placeOf, List.findIdx_eq_length_of_false hnone, List.take_length]
    · exact hnone y (mem_of_mem_distinct hy)
  | some z =>
    obtain ⟨hz, ys, zs, rfl, hys⟩ := List.find?_eq_some_iff_append.1 hfind
    have hys : ∀ y ∈ ys, agrees y x = false := fun y hy ↦ by simpa using hys y hy
    obtain ⟨rest, hrest⟩ := distinct_append_cons htrans zs hys hz
    have hindex : (ys ++ z :: zs).findIdx (agrees · x) = ys.length := by
      rw [List.findIdx_append, List.findIdx_eq_length_of_false hys, if_neg (Nat.lt_irrefl _),
        List.findIdx_cons, hz, cond_true, Nat.zero_add]
    refine ⟨distinct agrees ys, z :: rest, hrest, ?_, fun y hy ↦ ?_, rfl⟩
    · rw [placeOf, hindex, List.take_left]
    · exact hys y (mem_of_mem_distinct hy)

/-- **The slot of a constant** holds the first constant that agrees with it. -/
theorem getElem?_placeOf (xs : List α) (x : α) :
    (distinct agrees xs)[placeOf agrees xs x]? = xs.find? (agrees · x) := by
  obtain ⟨kept, rest, hxs, hlength, -, hfind⟩ := distinct_eq_append htrans xs x
  rw [hxs, ← hlength, List.getElem?_append_right (Nat.le_refl _), Nat.sub_self, ← hfind,
    List.head?_eq_getElem?]

theorem findIdx_distinct (xs : List α) (x : α) :
    (distinct agrees xs).findIdx (agrees · x) = placeOf agrees xs x := by
  obtain ⟨kept, rest, hxs, hlength, hkept, hfind⟩ := distinct_eq_append htrans xs x
  have hrest : rest.findIdx (agrees · x) = 0 := by
    cases rest with
    | nil => rfl
    | cons z rest =>
      have hz : agrees z x := List.find?_some (p := (agrees · x)) hfind.symm
      rw [List.findIdx_cons, hz, cond_true]
  rw [hxs, List.findIdx_append, List.findIdx_eq_length_of_false hkept, if_neg (Nat.lt_irrefl _),
    hrest, Nat.zero_add, hlength]

end

/-! ## What has been interned -/

theorem slot_of_intern (h : s.intern agrees x = some (slot, t)) :
    slot = s.items.toList.findIdx (agrees · x) := by
  have hfind : s.items.findIdx? (agrees · x) = s.items.toList.findIdx? (agrees · x) :=
    List.findIdx?_toArray _ _
  unfold intern at h
  rw [hfind] at h
  split at h
  · next hslot =>
    cases h
    exact (List.findIdx?_eq_some_iff_findIdx_eq.1 hslot).2.symm
  · next hnone =>
    split at h
    · cases h
      exact (List.findIdx?_eq_none_iff_findIdx_eq.1 hnone).symm
    · cases h

/-- The slots in use are those of some constants that have been interned one after the other, which
were given the slots that they are listed with. -/
structure InOrder (agrees : α → α → Bool) (given : List (Nat × α)) (s : Slots α) : Prop where
  /-- The constants that agree with none before them are in the slots, in their order. -/
  toList_eq : s.items.toList = distinct agrees (given.map Prod.snd)
  /-- Each constant was given the slot of the first one that agrees with it. -/
  slots_eq : given.map Prod.fst = places agrees (given.map Prod.snd)
  /-- The slot of a constant holds one that agrees with it, if not the constant itself. -/
  holds : ∀ n ∈ given, ∃ y, s.get? n.1 = some y ∧ (y = n.2 ∨ agrees y n.2)

theorem inOrder_empty : InOrder agrees [] empty := ⟨rfl, rfl, nofun⟩

theorem InOrder.intern (htrans : ∀ ⦃x y z⦄, agrees x y → agrees y z → agrees x z)
    {given : List (Nat × α)} (hs : s.InOrder agrees given)
    (h : s.intern agrees x = some (slot, t)) : t.InOrder agrees (given ++ [(slot, x)]) := by
  refine ⟨?_, ?_, List.forall_mem_append.2 ⟨fun n hn ↦ ?_, ?_⟩⟩
  · rw [toList_of_intern h, hs.toList_eq, List.map_append]
    exact distinct_concat.symm
  · rw [List.map_append, List.map_append, hs.slots_eq, slot_of_intern h, hs.toList_eq,
      findIdx_distinct htrans]
    exact places_concat.symm
  · obtain ⟨y, hy, hyn⟩ := hs.holds n hn
    exact ⟨y, extends_of_intern h hy, hyn⟩
  · rw [List.forall_mem_singleton]
    exact get?_slot_of_intern h

end Slots

/-! ## Expressions -/

/-- What has been interned into a pool, with the slots that were given out. -/
structure Pool.InOrder (numbers : List (Nat × Float)) (constants : List (Nat × Constant))
    (p : Pool) : Prop where
  /-- The real numbers. -/
  reals : p.reals.InOrder (· == ·) numbers
  /-- The complex numbers. -/
  complexes : p.complexes.InOrder Constant.agrees constants

namespace Expr

/-- The constants of the brackets of an expression with their slots, in the order of the text. -/
def constants {kind : Kind} (e : Expr kind) : List (Nat × Constant) :=
  e.literals.filterMap Literal.constant?

variable {kind : Kind} {e : Expr kind} {p q : Pool} {ns : List (Nat × Float)}
  {cs : List (Nat × Constant)}

theorem constants_binary {op : BinaryOp} {l r : Expr kind} :
    (binary op l r).constants = l.constants ++ r.constants := List.filterMap_append

theorem Flat.constants_eq_nil (h : e.Flat) : e.constants = [] := by
  induction e with
  | var v => rfl
  | number slot value => rfl
  | bracket slot x y => exact absurd h id
  | abs e ih => exact ih h
  | re e ih => exact ih h
  | im e ih => exact ih h
  | binary op left right ihl ihr =>
    rw [constants_binary, ihl h.1, ihr h.2]
    rfl

theorem Interns.inOrder (h : e.Interns p q) (he : e.Readable) (hp : p.Regular)
    (horder : p.InOrder ns cs) : q.InOrder (ns ++ e.numbered) (cs ++ e.constants) := by
  induction e generalizing p q ns cs with
  | var v =>
    rw [h, numbered, constants, literals, List.filterMap_nil, List.append_nil, List.append_nil]
    exact horder
  | number slot value =>
    obtain ⟨reals, hintern, rfl⟩ := Pool.internReal_eq_ok_iff.1 h
    rw [constants, literals, List.filterMap_cons_none rfl, List.filterMap_nil, List.append_nil]
    have htrans : ∀ ⦃x y z : Float⦄, x == y → y == z → x == z := fun _ _ _ ↦ BEq.trans
    exact ⟨horder.reals.intern htrans hintern, horder.complexes⟩
  | bracket slot x y ihx ihy =>
    obtain ⟨p₁, p₂, whole, c, hx, hy, hc, hslot⟩ := h
    obtain ⟨⟨hxe, hye⟩, ⟨left, hxr⟩, right, hyr⟩ := he
    obtain ⟨hp₁, hfx⟩ := hx.faithful hxe hp
    obtain ⟨-, hfy⟩ := hy.faithful hye hp₁
    rw [Constant.ofParts_eq (hfx.mono hp₁ hy.extends) hfy hxr.flat hyr.flat] at hc
    cases hc
    obtain ⟨complexes, hintern, rfl⟩ := Pool.internComplex_eq_ok_iff.1 hslot
    -- the parts have no brackets of their own
    have horder := ihy hy hye hp₁ (ihx hx hxe hp horder)
    rw [hxr.flat.constants_eq_nil, hyr.flat.constants_eq_nil, List.append_nil, List.append_nil,
      List.append_assoc] at horder
    exact ⟨horder.reals, horder.complexes.intern Constant.agrees_trans hintern⟩
  | abs e ih => exact ih h he hp horder
  | re e ih => exact ih h he hp horder
  | im e ih => exact ih h he hp horder
  | binary op left right ihl ihr =>
    obtain ⟨p₁, hl, hr⟩ := h
    have horder := ihr hr he.2 (hl.faithful he.1 hp).1 (ihl hl he.1 hp horder)
    rwa [List.append_assoc, List.append_assoc, ← constants_binary] at horder

end Expr

/-! ## Fixed constants -/

theorem Expr.varies_iff {kind : Kind} {e : Expr kind} : e.varies ↔ ∃ v, e.Mentions v := by
  refine ⟨fun h ↦ ?_, fun ⟨v, hv⟩ ↦ varies_of_mentions hv⟩
  induction e with
  | var v => exact ⟨v, rfl⟩
  | number slot value => cases h
  | bracket slot x y ihx ihy =>
    obtain h | h := Bool.or_eq_true_iff.1 h
    · exact (ihx h).imp fun _ ↦ .inl
    · exact (ihy h).imp fun _ ↦ .inr
  | abs e ih => exact ih h
  | re e ih => exact ih h
  | im e ih => exact ih h
  | binary op left right ihl ihr =>
    obtain h | h := Bool.or_eq_true_iff.1 h
    · exact (ihl h).imp fun _ ↦ .inl
    · exact (ihr h).imp fun _ ↦ .inr

namespace Constant

/-- A constant is a point. -/
def IsFixed (c : Constant) : Prop := ∃ z, c = fixed z

theorem isFixed_iff_of_agrees {c d : Constant} (h : c.agrees d) : c.IsFixed ↔ d.IsFixed := by
  match c, d with
  | .fixed z, .fixed w => exact iff_of_true ⟨z, rfl⟩ ⟨w, rfl⟩
  | .varying _, .varying _ => exact iff_of_false nofun nofun

theorem isFixed_iff_of_eq_or_agrees {c d : Constant} (h : c = d ∨ c.agrees d) :
    c.IsFixed ↔ d.IsFixed := by
  obtain rfl | h := h
  · rfl
  · exact isFixed_iff_of_agrees h

theorem isFixed_ofBracket_iff {left right : Text} {x y : Expr .real} (hx : x.ReadsPart left)
    (hy : y.ReadsPart right) :
    (ofBracket x y).IsFixed ↔ ∀ v : Variable, v.char ∉ left ∧ v.char ∉ right := by
  have hvaries : (ofBracket x y).IsFixed ↔ ¬(x.varies || y.varies) := by
    rw [ofBracket]
    split
    · next h => exact iff_of_false nofun (not_not_intro h)
    · next h => exact iff_of_true ⟨_, rfl⟩ h
  rw [hvaries, Bool.or_eq_true_iff, Expr.varies_iff, Expr.varies_iff, ← exists_or, not_exists]
  refine forall_congr' fun v ↦ ?_
  rw [not_or, hx.mentions_iff, hy.mentions_iff]

end Constant

/-! ## Formulas -/

theorem Expr.Legible.flat_of_mem {kind : Kind} {e : Expr kind} (h : e.Legible) {slot : Nat}
    {x y : Expr .real} (hmem : .bracket slot x y ∈ e.literals) : x.Flat ∧ y.Flat := by
  induction e with
  | var v => cases hmem
  | number slot' value => simp [literals] at hmem
  | bracket slot' x' y' =>
    cases List.mem_singleton.1 hmem
    obtain ⟨⟨left, hx⟩, right, hy⟩ := h
    exact ⟨hx.flat, hy.flat⟩
  | abs e ih => exact ih h hmem
  | re e ih => exact ih h hmem
  | im e ih => exact ih h hmem
  | binary op left right ihl ihr =>
    obtain hmem | hmem := List.mem_append.1 hmem
    · exact ihl h.1 hmem
    · exact ihr h.2 hmem

/-- How the literals of a text are given slots. -/
structure Recurrence.Allots (r : Recurrence) (raw : Text) (literals : List Literal) : Prop where
  /-- The literals are those of the first term and then those of the next term. -/
  spelled : ∃ firsts nexts, Token.scanTerms raw = .ok (firsts, nexts) ∧
    List.Forall₂ Token.Spells ((firsts ++ nexts).filter Token.isLiteral) literals
  /-- Their numbers are those of the text, inside brackets and outside. -/
  numerals : raw.numerals.map Numeral.float? =
    (literals.flatMap Literal.numbered).map fun n ↦ some n.2
  /-- The numbers that equal none before them are in the slots for real numbers. -/
  reals : r.pool.reals.InOrder (· == ·) (literals.flatMap Literal.numbered)
  /-- The brackets that agree with none before them are in the slots for complex numbers. -/
  complexes : r.pool.complexes.InOrder Constant.agrees (literals.filterMap Literal.constant?)
  /-- The slot of a bracket holds a point exactly if there is no variable in the bracket. -/
  fixed_iff : ∀ {left right slot x y}, .bracket slot x y ∈ literals → x.ReadsPart left →
    y.ReadsPart right → ((∃ z, r.pool.complexes.get? slot = some (.fixed z)) ↔
      ∀ v : Variable, v.char ∉ left ∧ v.char ∉ right)
  /-- The programs of the terms name the slots of the literals, and no other slots. -/
  code : (r.first.code ++ r.next.code).filter Instr.isSlot = literals.map Literal.instr
  /-- The program of a bracket names the slots of its numbers, and no other slots. -/
  bracketCode : ∀ {slot x y program}, .bracket slot x y ∈ literals →
    Constant.ofBracket x y = .varying program →
    program.code.filter Instr.isSlot =
      (Literal.bracket slot x y).numbered.map fun n ↦ Instr.real n.1

namespace Recurrence

/-- **Slots are in the order of the text.** The numbers of a formula, first term before next term
and those of a bracket at its place, take a slot each, unless they equal a number before them; and
so do its brackets, unless they agree with a bracket before them. Every instruction that names a
slot names that of the first literal that agrees with its own. -/
theorem exists_allots_of_read {raw : Text} {r : Recurrence} (h : read raw = .ok r) :
    ∃ literals, r.Allots raw literals := by
  obtain ⟨first, next, e₁, e₂, p, q, htext, hfirst, hnext, hf, hp, hreads₁, hreads₂, hintern₁,
    hintern₂, rfl⟩ := read_eq_ok_iff.1 h
  have hregular := (hintern₁.faithful hreads₁.readable Pool.regular_empty).1
  have horder : q.InOrder (e₁.numbered ++ e₂.numbered) (e₁.constants ++ e₂.constants) :=
    hintern₂.inOrder hreads₂.readable hregular
      (hintern₁.inOrder hreads₁.readable Pool.regular_empty
        ⟨Slots.inOrder_empty, Slots.inOrder_empty⟩)
  obtain ⟨firsts, hscan₁⟩ := hreads₁.exists_scan
  obtain ⟨nexts, hscan₂⟩ := hreads₂.exists_scan
  have hnumbered : (e₁.literals ++ e₂.literals).flatMap Literal.numbered =
      e₁.numbered ++ e₂.numbered := by
    rw [List.flatMap_append, ← Expr.numbered_eq_flatMap, ← Expr.numbered_eq_flatMap]
  have hconstants : (e₁.literals ++ e₂.literals).filterMap Literal.constant? =
      e₁.constants ++ e₂.constants := List.filterMap_append
  have hflat {slot : Nat} {x y : Expr .real}
      (hmem : .bracket slot x y ∈ e₁.literals ++ e₂.literals) : x.Flat ∧ y.Flat :=
    (List.mem_append.1 hmem).elim hreads₁.legible.flat_of_mem hreads₂.legible.flat_of_mem
  refine ⟨e₁.literals ++ e₂.literals, ?_, ?_, ?_, ?_, ?_, ?_, ?_⟩
  · refine ⟨firsts, nexts, Token.scanTerms_eq_ok_iff.2
      ⟨first, next, htext, hfirst, hnext, hf, hp, hscan₁, hscan₂⟩, ?_⟩
    rw [List.filter_append]
    exact List.rel_append (hreads₁.forall₂_literals hscan₁) (hreads₂.forall₂_literals hscan₂)
  · rw [htext, Text.numerals_append_cons (by decide), List.map_append, hreads₁.map_numerals,
      hreads₂.map_numerals, hnumbered, List.map_append, ← Expr.map_snd_numbered,
      ← Expr.map_snd_numbered, List.map_map, List.map_map]
    rfl
  · rw [hnumbered]
    exact horder.reals
  · rw [hconstants]
    exact horder.complexes
  · intro left right slot x y hmem hx hy
    have hconstant : (slot, Constant.ofBracket x y) ∈ e₁.constants ++ e₂.constants :=
      hconstants ▸ List.mem_filterMap.2 ⟨_, hmem, rfl⟩
    obtain ⟨d, hd, hagrees⟩ := horder.complexes.holds _ hconstant
    rw [← Constant.isFixed_ofBracket_iff hx hy, ← Constant.isFixed_iff_of_eq_or_agrees hagrees]
    exact exists_congr fun z ↦ by rw [ofExprs, hd, Option.some_inj]
  · rw [List.filter_append, List.map_append]
    exact congrArg₂ _ e₁.filter_code e₂.filter_code
  · intro slot x y program hmem hprogram
    obtain ⟨hx, hy⟩ := hflat hmem
    rcases Constant.ofBracket_cases x y with hbracket | ⟨-, -, hfixed⟩
    · cases hbracket.symm.trans hprogram
      exact Expr.filter_code_bracket hx hy
    · cases (hfixed fun _ ↦ .zero).symm.trans hprogram

/-- Brackets that are spelled differently share a slot, and so do their numbers. -/
theorem exists_allots_of_read_of_shared : ∃ r literals,
    read "[1,2];p*p+[1.0,2]*[rp,2]".toList = .ok r ∧ r.pool.reals.size = 2 ∧
      r.pool.complexes.size = 2 ∧ r.Allots "[1,2];p*p+[1.0,2]*[rp,2]".toList literals := by
  have hsizes : (read "[1,2];p*p+[1.0,2]*[rp,2]".toList).toOption.map
      (fun r ↦ (r.pool.reals.size, r.pool.complexes.size)) = some (2, 2) := by decide +kernel
  cases hread : read "[1,2];p*p+[1.0,2]*[rp,2]".toList with
  | error e =>
    rw [hread] at hsizes
    cases hsizes
  | ok r =>
    rw [hread] at hsizes
    obtain ⟨hreals, hcomplexes⟩ := Prod.mk.inj (Option.some.inj hsizes)
    obtain ⟨literals, hallots⟩ := exists_allots_of_read hread
    exact ⟨r, literals, rfl, hreals, hcomplexes, hallots⟩

end Recurrence

end OrbitPlot
