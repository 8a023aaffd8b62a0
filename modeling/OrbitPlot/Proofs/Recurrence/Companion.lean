import Mathlib.Data.List.Perm.Subperm
import OrbitPlot.Catalogue
import OrbitPlot.Proofs.Recurrence.Acceptance
import OrbitPlot.Proofs.Recurrence.Mentions

/-!
# Julia companions

The companion of a formula is made by exchanging two characters at the end of the text. That it is
a formula again, and what it computes, depends on how the text is read: `+c` at the end is never
inside a number or a bracket, and since sums group to the left, it is the addition that is done
last. What remains without it needs no more slots than it did, though perhaps other ones, since the
first term may have filled some.

## Main statements

* `Expr.Reads.exists_add`: a term that ends with `+c` is a sum.
* `Pool.Fits.empty`: what fits into a pool behind other constants fits into an empty one.
* `companion_of_read`: the companion of a formula does what its name says.
-/

namespace OrbitPlot

open Double

/-! ## Endings -/

/-- Where a character in a text stands that ends with two others: it is one of the two, or before
them. -/
theorem Text.append_cons_eq_append_pair {left right body : Text} {c d d' : Char}
    (h : left ++ c :: right = body ++ [d, d']) :
    c = d' ∨ (c = d ∧ left = body ∧ right = [d']) ∨ ∃ rest, right = rest ++ [d, d'] := by
  rcases List.append_eq_append_iff.1 h with ⟨_ | ⟨e, w⟩, rfl, hw⟩ | ⟨w, rfl, hw⟩
  · obtain ⟨rfl, rfl⟩ := List.cons.inj hw
    exact .inr (.inl ⟨rfl, (List.append_nil left).symm, rfl⟩)
  · exact .inr (.inr ⟨w, (List.cons.inj hw).2⟩)
  · match w, hw with
    | [], hw =>
      obtain ⟨rfl, rfl⟩ := List.cons.inj hw
      exact .inr (.inl ⟨rfl, List.append_nil body, rfl⟩)
    | [_], hw => exact .inl (List.cons.inj (List.cons.inj hw).2).1.symm
    | _ :: _ :: w, hw =>
      obtain ⟨-, hnil⟩ := List.cons.inj (List.cons.inj hw).2
      cases w <;> cases hnil

namespace Expr

variable {kind : Kind} {text body : Text} {e : Expr kind}

private theorem Atom.ne_append (h : Atom kind text e) (body : Text) :
    text ≠ body ++ "+c".toList := by
  have hplus : '+' ∈ body ++ "+c".toList := List.mem_append_right body List.mem_cons_self
  rintro rfl
  generalize htext : body ++ "+c".toList = text at h hplus
  cases h with
  | simple h =>
    cases h with
    | var v =>
      have hlength := congrArg List.length htext
      simp at hlength
    | number slot hchars hvalue => exact hchars '+' hplus (by decide)
  | @bracket left right x y slot hx hy =>
    have hlast := congrArg List.getLast? htext
    rw [bracketText, List.getLast?_concat, List.getLast?_append_of_ne_nil _ (by decide)] at hlast
    cases hlast

private theorem ne_append_of_derives {g : Grade} (h : Derives Text.alphabet Atom g text e)
    (hg : g ≠ .sum) (body : Text) : text ≠ body ++ "+c".toList := by
  induction h generalizing body with
  | atom h => exact h.ne_append body
  | @unary op word _ _ ih =>
    intro htext
    have hcons : [] ++ op.char :: word = body ++ ['+', 'c'] := htext
    rcases Text.append_cons_eq_append_pair hcons with hop | ⟨hop, -⟩ | ⟨rest, hrest⟩
    · cases op <;> cases hop
    · cases op <;> cases hop
    · exact ih nofun rest hrest
  | product _ ih => exact ih nofun body
  | mul _ _ _ ihr =>
    intro htext
    rcases Text.append_cons_eq_append_pair htext with hop | ⟨hop, -⟩ | ⟨rest, hrest⟩
    · cases hop
    · cases hop
    · exact ihr nofun rest hrest
  | sum _ _ => exact absurd rfl hg
  | additive _ _ _ _ _ => exact absurd rfl hg

theorem reads_var (v : Variable) : (Expr.var v).Reads [v.char] :=
  .sum (.product (.atom (.simple (.var v))))

theorem Reads.add_var {l : Expr .complex} (h : l.Reads body) (v : Variable) :
    (Expr.binary .add l (.var v)).Reads (body ++ BinaryOp.add.char :: [v.char]) :=
  Derives.additive (A := Text.alphabet) (show BinaryOp.add ≠ .mul by decide) h
    (.product (.atom (.simple (.var v))))

/-- A term that ends by adding the current point is a sum, and the current point is what is added
last: neither is it part of a number or of a bracket, nor do other operators come between. -/
theorem Reads.exists_add {e : Expr .complex} (h : e.Reads (body ++ "+c".toList)) :
    ∃ l : Expr .complex, e = .binary .add l (.var .current) ∧ l.Reads body := by
  unfold Reads at h
  generalize htext : body ++ "+c".toList = text at h
  cases h with
  | sum h => exact absurd htext.symm (ne_append_of_derives h nofun body)
  | @additive op _ left right l r hop hl hr =>
    rcases Text.append_cons_eq_append_pair htext.symm with hc | ⟨hplus, rfl, rfl⟩ | ⟨rest, hrest⟩
    · cases op <;> cases hc
    · obtain rfl : op = .add := by cases op <;> first | rfl | cases hplus
      have hr : r.Reads [Variable.current.char] := .sum hr
      have hsame : r.unslotted = .var .current := operand_inj.1 (hr.operand_eq (reads_var .current))
      cases r <;> cases hsame
      exact ⟨l, rfl, hl⟩
    · exact absurd hrest (ne_append_of_derives hr nofun rest)

end Expr

/-! ## What fits into an empty pool -/

namespace Slots

variable {α : Type} {agrees : α → α → Bool} {P : α → Prop}

/-- Of what is kept less, less is kept when one more element comes, if only equal elements agree. -/
theorem subperm_keep (heq : ∀ x y, P x → P y → agrees x y → x = y) {kept kept' : List α}
    (hkept : ∀ y ∈ kept', P y) {x : α} (hx : P x) (h : kept.Subperm kept') :
    (keep agrees kept x).Subperm (keep agrees kept' x) := by
  unfold keep
  by_cases hany' : kept'.any (agrees · x)
  · obtain ⟨y, hy, hagrees⟩ := List.any_eq_true.1 hany'
    obtain rfl := heq y x (hkept y hy) hx hagrees
    rw [if_pos hany']
    split
    · exact h
    · next hany =>
      -- what is kept already agrees with itself, so it is kept on the left only if not there yet
      have hnew : y ∉ kept := fun hmem ↦ hany (List.any_eq_true.2 ⟨y, hmem, hagrees⟩)
      exact (List.perm_append_singleton y kept).subperm.trans
        (List.cons_subperm_of_not_mem_of_mem hnew hy h)
  · rw [if_neg hany']
    split
    · exact h.trans (List.sublist_append_left kept' [x]).subperm
    · exact h.append (List.Subperm.refl [x])

theorem subperm_foldl_keep (heq : ∀ x y, P x → P y → agrees x y → x = y) {xs : List α}
    (hxs : ∀ x ∈ xs, P x) {kept kept' : List α} (hkept : ∀ y ∈ kept', P y)
    (h : kept.Subperm kept') :
    (xs.foldl (keep agrees) kept).Subperm (xs.foldl (keep agrees) kept') := by
  induction xs generalizing kept kept' with
  | nil => exact h
  | cons x xs ih =>
    obtain ⟨hx, hxs⟩ := List.forall_mem_cons.1 hxs
    refine ih hxs (fun y hy ↦ ?_) (subperm_keep heq hkept hx h)
    unfold keep at hy
    split at hy
    · exact hkept y hy
    · exact (List.mem_append.1 hy).elim (hkept y) fun hy ↦ List.mem_singleton.1 hy ▸ hx

theorem length_foldl_keep_le (heq : ∀ x y, P x → P y → agrees x y → x = y) {xs kept : List α}
    (hxs : ∀ x ∈ xs, P x) (hkept : ∀ y ∈ kept, P y) :
    (xs.foldl (keep agrees) []).length ≤ (xs.foldl (keep agrees) kept).length :=
  (subperm_foldl_keep heq hxs hkept List.nil_subperm).length_le

end Slots

namespace Constant

/-- What a regular constant is told apart by: no part of a point is negative zero. -/
def RegularTag : Point ⊕ Text → Prop
  | .inl z => z.re ≠ negZero ∧ z.im ≠ negZero
  | .inr _ => True

theorem Regular.tag {pool : Pool} {c : Constant} (h : c.Regular pool) : RegularTag c.tag := by
  cases c with
  | fixed z => exact h
  | varying program => trivial

theorem eq_of_tagsAgree {t u : Point ⊕ Text} (ht : RegularTag t) (hu : RegularTag u)
    (h : tagsAgree t u) : t = u := by
  match t, u with
  | .inl z, .inl w => exact congrArg _ (Point.eq_of_agrees ht hu h)
  | .inr text, .inr text' => exact congrArg _ (of_decide_eq_true h)
  | .inl _, .inr _ => cases h
  | .inr _, .inl _ => cases h

end Constant

namespace Expr

variable {kind : Kind} {e : Expr kind}

theorem Readable.ne_negZero (h : e.Readable) : ∀ x ∈ e.numbers, x ≠ negZero := by
  induction e with
  | var v => nofun
  | number slot value => exact List.forall_mem_singleton.2 h
  | bracket slot x y ihx ihy => exact List.forall_mem_append.2 ⟨ihx h.1.1, ihy h.1.2⟩
  | abs e ih => exact ih h
  | re e ih => exact ih h
  | im e ih => exact ih h
  | binary op left right ihl ihr => exact List.forall_mem_append.2 ⟨ihl h.1, ihr h.2⟩

theorem Readable.regularTag (h : e.Readable) : ∀ t ∈ e.brackets, Constant.RegularTag t := by
  induction e with
  | var v => nofun
  | number slot value => nofun
  | bracket slot x y ihx ihy =>
    obtain ⟨⟨hx, hy⟩, ⟨left, hxr⟩, right, hyr⟩ := h
    refine List.forall_mem_append.2 ⟨List.forall_mem_append.2 ⟨ihx hx, ihy hy⟩, ?_⟩
    refine List.forall_mem_singleton.2 ?_
    rcases Constant.ofBracket_cases x y with hc | ⟨hxv, hyv, hc⟩
    · rw [hc]
      trivial
    · rw [hc fun _ ↦ .zero]
      exact ⟨hxr.ne_negZero hxv, hyr.ne_negZero hyv⟩
  | abs e ih => exact ih h
  | re e ih => exact ih h
  | im e ih => exact ih h
  | binary op left right ihl ihr => exact List.forall_mem_append.2 ⟨ihl h.1, ihr h.2⟩

end Expr

namespace Pool

variable {p : Pool}

theorem Regular.ne_negZero (hp : p.Regular) : ∀ x ∈ p.numbers, x ≠ negZero := by
  intro x hx
  obtain ⟨slot, hslot⟩ := List.mem_iff_getElem?.1 hx
  exact hp.reals ((Array.getElem?_toList ..).symm.trans hslot)

theorem Regular.regularTag (hp : p.Regular) : ∀ t ∈ p.tags, Constant.RegularTag t := by
  intro t ht
  obtain ⟨c, hc, rfl⟩ := List.mem_map.1 ht
  obtain ⟨slot, hslot⟩ := List.mem_iff_getElem?.1 hc
  exact (hp.complexes ((Array.getElem?_toList ..).symm.trans hslot)).tag

theorem Fits.empty {kind : Kind} {e : Expr kind} (h : p.Fits e.numbers e.brackets)
    (hp : p.Regular) (he : e.Readable) : Fits {} e.numbers e.brackets := by
  constructor
  · exact (Slots.length_foldl_keep_le (fun _ _ ↦ eq_of_beq) he.ne_negZero hp.ne_negZero).trans
      h.numbers
  · exact (Slots.length_foldl_keep_le (fun _ _ ↦ Constant.eq_of_tagsAgree) he.regularTag
      hp.regularTag).trans h.tags

end Pool

/-! ## Companions -/

namespace Recurrence

variable {raw next body : Text} {r companion : Recurrence}

theorem value_next_of_read {first : Text} (h : read raw = .ok r)
    (hsplit : Token.splitTerms raw = .ok (first, next)) {e : Expr .complex} (he : e.Reads next)
    {b : Bindings} {env : Variable → Point} (hb : b.Gives env) :
    r.next.value r.pool b = .ok (e.value env) := by
  obtain ⟨first', next', e₁, e₂, p, hsplit', -, -, -, -, hrealizes⟩ := faithful_of_read h
  cases hsplit.symm.trans hsplit'
  exact hrealizes.value_eq e he b env hb

/-- A rule may start with the current point, if its constants alone can be interned. -/
theorem read_current {e : Expr .complex} {q : Pool} (hnext : ';' ∉ next) (he : e.Reads next)
    (hintern : e.Interns {} q) :
    read ("c;".toList ++ next) = .ok (ofExprs q (.var .current) e) :=
  read_eq_ok_iff.2 ⟨['c'], next, .var .current, e, {}, q, rfl, by decide, hnext, by decide,
    by decide, Expr.reads_var .current, he, rfl, hintern, rfl⟩

/-- A recurrence is the companion of another, whose rule is `body` and the current point added to
it: it starts with the current point and adds the selected point where the other adds the current
one. -/
structure IsCompanion (body : Text) (r companion : Recurrence) : Prop where
  /-- It cannot be drawn before a point has been selected. -/
  needsSelected : companion.needsSelected
  /-- Its first term is the current point. -/
  first : ∀ b, companion.first.value companion.pool b = .ok b.current
  /-- Without what is added, the rule is one as well, and both recurrences go on from its value. -/
  next : ∃ rest, read ("c;".toList ++ body) = .ok rest ∧ ∀ b env, b.Gives env →
    ∃ z, rest.next.value rest.pool b = .ok z ∧
      r.next.value r.pool b = .ok (z + env .current) ∧
      companion.next.value companion.pool b = .ok (z + env .selected)

end Recurrence

/-- **The companion of a formula is its companion.** If a formula has one, its rule ends with `+c`,
the companion is a formula as well, and the two compute the same except that one adds the selected
point where the other adds the current point. -/
theorem companion_of_read {raw j : Text} {r : Recurrence} (h : Recurrence.read raw = .ok r)
    (hj : juliaCompanion? raw = some j) :
    ∃ first body companion, Token.splitTerms raw = .ok (first, body ++ "+c".toList) ∧
      Recurrence.read j = .ok companion ∧ r.IsCompanion body companion := by
  obtain ⟨first, next, e₁, e₂, p, q, htext, hfirst, hnext, -, -, hreads₁, hreads₂, hintern₁,
    hintern₂, rfl⟩ := Recurrence.read_eq_ok_iff.1 h
  have hsplit := Token.splitTerms_eq_ok_iff.2 ⟨htext, hfirst, hnext⟩
  simp only [juliaCompanion?, hsplit, Option.map_eq_some_iff] at hj
  obtain ⟨body, hbody, rfl⟩ := hj
  obtain rfl := Text.dropEnding_eq_some_iff.1 hbody
  obtain ⟨hsemi, -⟩ := not_or.1 (mt List.mem_append.2 hnext)
  -- the rule is a sum, whose left part has been interned behind the first term
  obtain ⟨l, rfl, hl⟩ := hreads₂.exists_add
  obtain ⟨p', hinternl, rfl⟩ := hintern₂
  obtain ⟨hp, -⟩ := hintern₁.faithful hreads₁.readable Pool.regular_empty
  have hfits := (hinternl.adds hl.readable hp).fits.empty hp hl.readable
  obtain ⟨l', q', hsame, -, hintern, -⟩ := Expr.exists_interns hl.readable Pool.regular_empty hfits
  -- so it can be interned alone, with other slots, and both of the new rules are made of it
  have hl' := hl.of_unslotted_eq hsame
  have hrest := Recurrence.read_current hsemi hl' hintern
  have hsemi' : ';' ∉ body ++ "+u".toList :=
    fun hmem ↦ (List.mem_append.1 hmem).elim hsemi (by decide)
  have hcompanion := Recurrence.read_current hsemi' (hl'.add_var .selected) ⟨q', hintern, rfl⟩
  have hsplit' {next : Text} (hnext : ';' ∉ next) :
      Token.splitTerms ("c;".toList ++ next) = .ok (['c'], next) :=
    Token.splitTerms_eq_ok_iff.2 ⟨rfl, by decide, hnext⟩
  refine ⟨first, body, _, hsplit, hcompanion, ⟨?_, fun b ↦ rfl, _, hrest, fun b env hb ↦ ?_⟩⟩
  · obtain ⟨_, _, hterms, -, -, hvars⟩ := Recurrence.reads_iff_of_read hcompanion
    cases (hsplit' hsemi').symm.trans hterms
    refine Bool.or_eq_true_iff.2 (.inr ((hvars .selected).2.2 ?_))
    exact List.mem_append_right body (by decide)
  · exact ⟨l.value env, Recurrence.value_next_of_read hrest (hsplit' hsemi) hl hb,
      Recurrence.value_next_of_read h hsplit hreads₂ hb,
      Recurrence.value_next_of_read hcompanion (hsplit' hsemi') (hl.add_var .selected) hb⟩

/-- The number of the rule is in the second slot behind those of the first term, and in the first
slot of the companion, whose pool has no other. -/
theorem companion_of_read_of_renumbered : ∃ r companion,
    Recurrence.read "[2,3];[3,rp]*p+c".toList = .ok r ∧
      Recurrence.read "c;[3,rp]*p+u".toList = .ok companion ∧ r.pool.reals.size = 2 ∧
      companion.pool.reals.size = 1 ∧ r.IsCompanion "[3,rp]*p".toList companion := by
  have hsize : (Recurrence.read "[2,3];[3,rp]*p+c".toList).toOption.map
      (fun r ↦ r.pool.reals.size) = some 2 := by decide +kernel
  have hsize' : (Recurrence.read "c;[3,rp]*p+u".toList).toOption.map
      (fun r ↦ r.pool.reals.size) = some 1 := by decide +kernel
  obtain ⟨r, hread, hr⟩ := Except.exists_of_map_toOption_eq_some hsize
  obtain ⟨first, body, companion, hsplit, hcompanion, h⟩ :=
    companion_of_read (j := "c;[3,rp]*p+u".toList) hread (by decide)
  have hterms : Token.splitTerms "[2,3];[3,rp]*p+c".toList =
      .ok ("[2,3]".toList, "[3,rp]*p".toList ++ "+c".toList) :=
    Token.splitTerms_eq_ok_iff.2 ⟨rfl, by decide, by decide⟩
  obtain ⟨-, hbody⟩ := Prod.mk.inj (Except.ok.inj (hterms.symm.trans hsplit))
  obtain rfl := List.append_cancel_right hbody
  rw [hcompanion] at hsize'
  exact ⟨r, companion, hread, hcompanion, hr, Option.some.inj hsize', h⟩

end OrbitPlot
