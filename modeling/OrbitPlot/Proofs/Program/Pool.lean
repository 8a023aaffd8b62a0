import OrbitPlot.Program.Pool
import OrbitPlot.Proofs.Outcome

/-!
# Pools grow

Interning either finds a constant or puts it into the next slot, so every slot in use keeps what it
holds: the pool afterwards `Extends` the pool before.

## Main statements

* `Slots.intern_cases`: what interning can do.
* `Slots.extends_of_intern`: a slot in use keeps its constant.
* `Slots.toList_of_intern`, `Slots.exists_intern`: which constants are kept, and when that is
  possible.
-/

namespace OrbitPlot

namespace Slots

variable {α : Type} {agrees : α → α → Bool} {x y : α} {s t u : Slots α} {slot k : Nat}

theorem get?_lt_size (h : s.get? k = some y) : k < s.size := by
  obtain ⟨hk, -⟩ := Array.getElem?_eq_some_iff.1 h
  exact hk

/-- Interning finds a constant that agrees, and changes nothing, or takes the next slot. -/
theorem intern_cases (h : s.intern agrees x = some (slot, t)) :
    (t = s ∧ ∃ y, s.get? slot = some y ∧ agrees y x) ∨
      (slot = s.size ∧ (∀ k y, s.get? k = some y → agrees y x = false) ∧
        t.items = s.items.push x) := by
  unfold intern at h
  split at h
  · next hfind =>
    cases h
    obtain ⟨hlt, hagrees, -⟩ := Array.findIdx?_eq_some_iff_getElem.1 hfind
    exact .inl ⟨rfl, s.items[slot], Array.getElem?_eq_getElem hlt, hagrees⟩
  · next hfind =>
    split at h
    · cases h
      refine .inr ⟨rfl, fun k y hk ↦ ?_, rfl⟩
      exact Array.findIdx?_eq_none_iff.1 hfind y (Array.mem_of_getElem? hk)
    · cases h

theorem get?_slot_of_intern (h : s.intern agrees x = some (slot, t)) :
    ∃ y, t.get? slot = some y ∧ (y = x ∨ agrees y x) := by
  rcases intern_cases h with ⟨rfl, y, hy, hagrees⟩ | ⟨rfl, -, hitems⟩
  · exact ⟨y, hy, .inr hagrees⟩
  · refine ⟨x, ?_, .inl rfl⟩
    rw [get?, hitems, size, Array.getElem?_push_size]

theorem get?_eq_or_of_intern (h : s.intern agrees x = some (slot, t)) (hk : t.get? k = some y) :
    s.get? k = some y ∨ y = x := by
  rcases intern_cases h with ⟨rfl, -⟩ | ⟨-, -, hitems⟩
  · exact .inl hk
  · rw [get?, hitems, Array.getElem?_push] at hk
    split at hk
    · exact .inr (Option.some.inj hk).symm
    · exact .inl hk

/-- Every slot in use holds the same later. -/
def Extends (s t : Slots α) : Prop := ∀ ⦃k y⦄, s.get? k = some y → t.get? k = some y

theorem Extends.refl (s : Slots α) : s.Extends s := fun _ _ h ↦ h

theorem Extends.trans (h : s.Extends t) (h' : t.Extends u) : s.Extends u := fun _ _ hk ↦ h' (h hk)

theorem extends_of_intern (h : s.intern agrees x = some (slot, t)) : s.Extends t :=
  fun _ _ hk ↦ get?_of_intern h hk

/-! ## Which constants are kept -/

/-- The elements that agree with none before them. -/
def distinct (agrees : α → α → Bool) (xs : List α) : List α := xs.eraseDupsBy fun x y ↦ agrees y x

/-- One more element is kept if it agrees with none of those that are kept already. -/
def keep (agrees : α → α → Bool) (kept : List α) (x : α) : List α :=
  if kept.any (agrees · x) then kept else kept ++ [x]

theorem distinct_eq_foldl (xs : List α) : distinct agrees xs = xs.foldl (keep agrees) [] := by
  -- the loop holds what it has kept in reverse
  have hloop (xs kept : List α) : List.eraseDupsBy.loop (fun x y ↦ agrees y x) xs kept =
      xs.foldl (keep agrees) kept.reverse := by
    induction xs generalizing kept with
    | nil => rfl
    | cons x xs ih =>
      rw [List.eraseDupsBy.loop, List.foldl_cons, keep, List.any_reverse]
      cases kept.any (agrees · x) with
      | true => exact ih kept
      | false => exact (ih (x :: kept)).trans (by rw [List.reverse_cons]; rfl)
  exact hloop xs []

theorem length_le_keep (kept : List α) (x : α) : kept.length ≤ (keep agrees kept x).length := by
  unfold keep
  split
  · exact Nat.le_refl _
  · exact List.length_append ▸ Nat.le_add_right _ _

theorem length_le_foldl_keep (kept xs : List α) :
    kept.length ≤ (xs.foldl (keep agrees) kept).length := by
  induction xs generalizing kept with
  | nil => exact Nat.le_refl _
  | cons x xs ih => exact Nat.le_trans (length_le_keep kept x) (ih _)

/-- Keeping elements and telling them apart by less is the same as telling apart by less what is
kept. -/
theorem map_keep {β : Type} {agrees' : β → β → Bool} {f : α → β}
    (hf : ∀ x y, agrees' (f x) (f y) = agrees x y) (kept : List α) (x : α) :
    (keep agrees kept x).map f = keep agrees' (kept.map f) (f x) := by
  have hany : (kept.map f).any (agrees' · (f x)) = kept.any (agrees · x) := by
    simp only [List.any_map, Function.comp_def, hf]
  unfold keep
  rw [hany]
  split
  · rfl
  · exact List.map_append

theorem toList_of_intern (h : s.intern agrees x = some (slot, t)) :
    t.items.toList = keep agrees s.items.toList x := by
  rcases intern_cases h with ⟨rfl, y, hy, hagrees⟩ | ⟨-, hnew, hitems⟩
  · exact (if_pos (List.any_eq_true.2 ⟨y, Array.mem_toList_iff.2 (Array.mem_of_getElem? hy),
      hagrees⟩)).symm
  · rw [hitems, Array.toList_push]
    refine (if_neg fun hany ↦ ?_).symm
    obtain ⟨y, hy, hagrees⟩ := List.any_eq_true.1 hany
    obtain ⟨k, hk⟩ := List.mem_iff_getElem?.1 hy
    rw [hnew k y ((Array.getElem?_toList ..).symm.trans hk)] at hagrees
    cases hagrees

theorem exists_intern (h : (keep agrees s.items.toList x).length ≤ capacity) :
    ∃ slot t, s.intern agrees x = some (slot, t) := by
  unfold intern
  split
  · next slot hfind => exact ⟨slot, s, rfl⟩
  · next hfind =>
    have hany : ¬s.items.toList.any (agrees · x) := by
      intro hany
      obtain ⟨y, hy, hagrees⟩ := List.any_eq_true.1 hany
      have hnot := Array.findIdx?_eq_none_iff.1 hfind y (Array.mem_toList_iff.1 hy)
      rw [hnot] at hagrees
      cases hagrees
    rw [keep, if_neg hany, List.length_append] at h
    rw [dif_pos (show s.size < capacity from h)]
    exact ⟨_, _, rfl⟩

end Slots

namespace Pool

variable {p q r : Pool} {slot : Nat}

theorem internReal_eq_ok_iff {x : Float} :
    internReal x p = .ok slot q ↔
      ∃ reals, p.reals.intern (· == ·) x = some (slot, reals) ∧ q = { p with reals } := by
  unfold internReal
  split
  · next slot' reals heq =>
    rw [heq]
    constructor
    · rintro ⟨⟩
      exact ⟨reals, rfl, rfl⟩
    · rintro ⟨_, ⟨⟩, rfl⟩
      rfl
  · next heq =>
    rw [heq]
    exact ⟨nofun, fun ⟨_, h, _⟩ ↦ nomatch h⟩

theorem internComplex_eq_ok_iff {z : Constant} :
    internComplex z p = .ok slot q ↔
      ∃ complexes, p.complexes.intern Constant.agrees z = some (slot, complexes) ∧
        q = { p with complexes } := by
  unfold internComplex
  split
  · next slot' complexes heq =>
    rw [heq]
    constructor
    · rintro ⟨⟩
      exact ⟨complexes, rfl, rfl⟩
    · rintro ⟨_, ⟨⟩, rfl⟩
      rfl
  · next heq =>
    rw [heq]
    exact ⟨nofun, fun ⟨_, h, _⟩ ↦ nomatch h⟩

/-- Every slot in use holds the same later. -/
structure Extends (p q : Pool) : Prop where
  /-- For the slots of real numbers. -/
  reals : p.reals.Extends q.reals
  /-- For the slots of complex numbers. -/
  complexes : p.complexes.Extends q.complexes

theorem Extends.refl (p : Pool) : p.Extends p := ⟨.refl _, .refl _⟩

theorem Extends.trans (h : p.Extends q) (h' : q.Extends r) : p.Extends r :=
  ⟨h.reals.trans h'.reals, h.complexes.trans h'.complexes⟩

theorem extends_of_internReal {x : Float} (h : internReal x p = .ok slot q) : p.Extends q := by
  obtain ⟨reals, hintern, rfl⟩ := internReal_eq_ok_iff.1 h
  exact ⟨Slots.extends_of_intern hintern, .refl _⟩

theorem extends_of_internComplex {z : Constant} (h : internComplex z p = .ok slot q) :
    p.Extends q := by
  obtain ⟨complexes, hintern, rfl⟩ := internComplex_eq_ok_iff.1 h
  exact ⟨.refl _, Slots.extends_of_intern hintern⟩

theorem exists_depth_eq_succ {c : Constant} (h : p.complexes.get? slot = some c) :
    ∃ d, p.depth = d + 1 :=
  Nat.exists_eq_succ_of_ne_zero (Nat.ne_zero_of_lt (Slots.get?_lt_size h))

end Pool

end OrbitPlot
