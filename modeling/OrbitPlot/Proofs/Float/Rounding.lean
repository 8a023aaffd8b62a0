import OrbitPlot.Proofs.Float.Nearest

/-!
# What rounding loses

`toNearest` takes a rational number to the value of the double nearest to it, as if there were no
largest double. What it loses is at most half a unit in the last place, so it is small against the
number itself, unless the number is so small that its last place is the least of all.

Two facts carry most arguments about computed numbers. Rounding keeps the order, and nothing that is
`Representable` is nearer to a number than what the number is rounded to.

## Main statements

* `abs_toNearest_sub_le_of_representable`: what a number is rounded to is nearest to it.
* `abs_toNearest_sub_le`, `IsGrid.abs_toNearest_sub_le`, `abs_toNearest_sub_le_of_le`: how much is
  lost.
* `abs_toNearest_lt_iff`, `toNearest_eq_zero_iff`: what is too large to be rounded to a finite
  double, and what is too small to be rounded to anything but zero.
-/

namespace OrbitPlot

namespace Double

variable {p q v : ℚ} {n : ℕ}

/-! ## Whole numbers -/

theorem abs_halfEven_sub_le (hq : 0 ≤ q) (n : ℕ) : |(halfEven q : ℚ) - q| ≤ |n - q| := by
  have hlow := Nat.floor_le hq
  have hhigh := Nat.lt_floor_add_one q
  -- a whole number is at least as far away as the one next to `q` on the same side
  have hside : (n : ℚ) ≤ ⌊q⌋₊ ∨ (⌊q⌋₊ + 1 : ℚ) ≤ n := by
    rcases Nat.lt_or_ge ⌊q⌋₊ n with h | h
    · exact .inr (by exact_mod_cast h)
    · exact .inl (by exact_mod_cast h)
  have hfar : q - ⌊q⌋₊ ≤ |n - q| ∨ ⌊q⌋₊ + 1 - q ≤ |n - q| :=
    hside.imp (fun h ↦ le_abs.2 (.inr (by linarith))) fun h ↦ le_abs.2 (.inl (by linarith))
  rw [halfEven]
  split
  · rw [abs_sub_comm, abs_of_nonneg (by linarith)]
    rcases hfar with h | h <;> linarith
  · split
    · next hhalf =>
      obtain h | h : ⌊q⌋₊ % 2 = 0 ∨ ⌊q⌋₊ % 2 = 1 := Nat.mod_two_eq_zero_or_one _
      · rw [h, Nat.add_zero, abs_sub_comm, abs_of_nonneg (by linarith)]
        rcases hfar with h | h <;> linarith
      · rw [h, Nat.cast_add_one, abs_of_nonneg (by linarith)]
        rcases hfar with h | h <;> linarith
    · next hhalf hne =>
      have hmore : 1 / 2 < q - ⌊q⌋₊ := lt_of_le_of_ne (le_of_not_gt hhalf) (Ne.symm hne)
      rw [Nat.cast_add_one, abs_of_nonneg (by linarith)]
      rcases hfar with h | h <;> linarith

theorem abs_halfEven_sub_le_half (hq : 0 ≤ q) : |(halfEven q : ℚ) - q| ≤ 1 / 2 := by
  have hlow := Nat.floor_le hq
  have hhigh := Nat.lt_floor_add_one q
  have hbelow := abs_halfEven_sub_le hq ⌊q⌋₊
  have habove := abs_halfEven_sub_le hq (⌊q⌋₊ + 1)
  rw [abs_sub_comm (⌊q⌋₊ : ℚ), abs_of_nonneg (sub_nonneg.2 hlow)] at hbelow
  rw [Nat.cast_add_one, abs_of_nonneg (sub_nonneg.2 hhigh.le)] at habove
  linarith

/-! ## Numbers with a last place -/

/-- The unit of the least last place. -/
def leastUnit : ℚ := 2 ^ (-1074 : ℤ)

/-- The unit in the last place of the largest doubles. -/
def greatestUnit : ℚ := 2 ^ (971 : ℤ)

theorem leastUnit_pos : 0 < leastUnit := zpow_pos two_pos _

theorem greatestUnit_pos : 0 < greatestUnit := zpow_pos two_pos _

theorem two_pow_mul_leastUnit (k : ℕ) : 2 ^ k * leastUnit = 2 ^ (k + -1074 : ℤ) := by
  rw [leastUnit, zpow_add₀ two_ne_zero, zpow_natCast]

theorem two_pow_mul_greatestUnit (k : ℕ) : 2 ^ k * greatestUnit = 2 ^ (k + 971 : ℤ) := by
  rw [greatestUnit, zpow_add₀ two_ne_zero, zpow_natCast]

theorem two_pow_le_greatestUnit : 2 ^ 64 ≤ greatestUnit := by
  rw [← zpow_natCast]
  exact zpow_le_zpow_right₀ one_le_two (by decide)

theorem two_pow_mul_leastUnit_le : 2 ^ 200 * leastUnit ≤ greatestUnit := by
  rw [two_pow_mul_leastUnit, greatestUnit]
  exact zpow_le_zpow_right₀ one_le_two (by decide)

/-- A number that has at most 53 bits, none of which is below the least last place. -/
def Representable (v : ℚ) : Prop :=
  ∃ (n : ℤ) (e : ℤ), |n| ≤ 2 ^ 53 ∧ -1074 ≤ e ∧ v = n * 2 ^ e

/-- A whole number of units of the least last place. -/
def IsGrid (q : ℚ) : Prop := ∃ n : ℤ, q = n * leastUnit

theorem Representable.neg (hv : Representable v) : Representable (-v) := by
  obtain ⟨n, e, hn, he, rfl⟩ := hv
  exact ⟨-n, e, by rwa [abs_neg], he, by push_cast; ring⟩

theorem Representable.isGrid (hv : Representable v) : IsGrid v := by
  obtain ⟨n, e, -, he, rfl⟩ := hv
  refine ⟨n * 2 ^ (e + 1074).toNat, ?_⟩
  rw [Int.cast_mul, Int.cast_pow, Int.cast_ofNat, mul_assoc, two_pow_mul_leastUnit]
  congr 2
  omega

/-- Different doubles are at least one unit in the last place of either from each other, or nearly
so next to a power of two. -/
theorem Representable.abs_le_mul_abs_sub {w : ℚ} (hv : Representable v) (hw : Representable w)
    (hne : v ≠ w) : |v| ≤ (2 ^ 53 + 1) * |v - w| := by
  have hunits {m n d e : ℤ} (hn : |n| ≤ 2 ^ 53) (hle : e ≤ d)
      (hne : (n * 2 ^ e : ℚ) ≠ m * 2 ^ d) :
      |(n * 2 ^ e : ℚ)| ≤ 2 ^ 53 * |(n * 2 ^ e : ℚ) - m * 2 ^ d| := by
    have hunit : (0 : ℚ) < 2 ^ e := zpow_pos two_pos e
    -- in the smaller unit, both are whole numbers
    have hcount : (m * 2 ^ d : ℚ) = (m * 2 ^ (d - e).toNat : ℤ) * 2 ^ e := by
      rw [Int.cast_mul, Int.cast_pow, Int.cast_ofNat, mul_assoc, ← zpow_natCast,
        ← zpow_add₀ two_ne_zero]
      congr 2
      omega
    rw [hcount] at hne ⊢
    have hone : 1 ≤ |n - m * 2 ^ (d - e).toNat| := by
      refine Int.one_le_abs (sub_ne_zero.2 fun heq ↦ hne ?_)
      rw [heq]
    have hone : (1 : ℚ) ≤ |(n : ℚ) - (m * 2 ^ (d - e).toNat : ℤ)| := by exact_mod_cast hone
    have hn : |(n : ℚ)| ≤ 2 ^ 53 := by exact_mod_cast hn
    rw [← sub_mul, abs_mul, abs_mul, abs_of_pos hunit, ← mul_assoc]
    refine mul_le_mul_of_nonneg_right (hn.trans ?_) hunit.le
    linarith
  obtain ⟨n, e, hn, -, rfl⟩ := hv
  obtain ⟨m, d, hm, -, rfl⟩ := hw
  rcases le_total e d with hle | hle
  · have hv := hunits hn hle hne
    have hpos := abs_nonneg (n * 2 ^ e - m * 2 ^ d : ℚ)
    linarith
  · have hw := hunits hm hle hne.symm
    have htriangle := abs_sub_abs_le_abs_sub (n * 2 ^ e : ℚ) (m * 2 ^ d)
    rw [abs_sub_comm] at hw
    linarith

theorem representable_natCast_mul {e : ℤ} (hn : n ≤ 2 ^ 53) (he : -1074 ≤ e) :
    Representable (n * 2 ^ e) :=
  ⟨n, e, by rw [Nat.abs_cast]; exact_mod_cast hn, he, by rw [Int.cast_natCast]⟩

theorem representable_zpow {e : ℤ} (he : -1074 ≤ e) : Representable (2 ^ e) := by
  have h := representable_natCast_mul (n := 1) (by norm_num) he
  rwa [Nat.cast_one, one_mul] at h

theorem representable_two_pow_mul (k : ℕ) : Representable (2 ^ k * leastUnit) := by
  rw [two_pow_mul_leastUnit]
  exact representable_zpow (by omega)

theorem representable_natCast (hn : n ≤ 2 ^ 53) : Representable n := by
  have h := representable_natCast_mul (e := 0) hn (by decide)
  rwa [zpow_zero, mul_one] at h

theorem representable_zero : Representable 0 := by
  exact_mod_cast representable_natCast (n := 0) (Nat.zero_le _)

namespace IsGrid

theorem neg (hq : IsGrid q) : IsGrid (-q) := by
  obtain ⟨n, rfl⟩ := hq
  exact ⟨-n, by push_cast; ring⟩

theorem add (hp : IsGrid p) (hq : IsGrid q) : IsGrid (p + q) := by
  obtain ⟨m, rfl⟩ := hp
  obtain ⟨n, rfl⟩ := hq
  exact ⟨m + n, by push_cast; ring⟩

theorem sub (hp : IsGrid p) (hq : IsGrid q) : IsGrid (p - q) :=
  sub_eq_add_neg p q ▸ hp.add hq.neg

theorem natCast_mul (hq : IsGrid q) (n : ℕ) : IsGrid (n * q) := by
  obtain ⟨m, rfl⟩ := hq
  exact ⟨n * m, by push_cast; ring⟩

theorem le_of_pos (hq : IsGrid q) (hpos : 0 < q) : leastUnit ≤ q := by
  obtain ⟨n, rfl⟩ := hq
  have hn : 0 < n := by exact_mod_cast pos_of_mul_pos_left hpos leastUnit_pos.le
  exact le_mul_of_one_le_left leastUnit_pos.le (by exact_mod_cast hn)

/-- Of few units, all bits are kept. -/
theorem representable (hq : IsGrid q) (hle : |q| ≤ 2 ^ 53 * leastUnit) : Representable q := by
  obtain ⟨n, rfl⟩ := hq
  refine ⟨n, -1074, ?_, le_rfl, rfl⟩
  rw [abs_mul, abs_of_pos leastUnit_pos, mul_le_mul_iff_left₀ leastUnit_pos] at hle
  exact_mod_cast hle

end IsGrid

/-! ## Rounding a positive number -/

theorem rounded_zero : rounded 0 = 0 := by
  have h : halfEven 0 = 0 := by exact_mod_cast halfEven_natCast 0
  rw [rounded, zero_div, h, Nat.cast_zero, zero_mul]

theorem rounded_nonneg (q : ℚ) : 0 ≤ rounded q :=
  mul_nonneg (Nat.cast_nonneg _) (zpow_nonneg zero_le_two _)

theorem representable_rounded (hq : 0 < q) : Representable (rounded q) :=
  representable_natCast_mul (halfEven_lastPlace_le hq) (le_max_right _ _)

/-- The distance of what `q` is rounded to, from the distance in units of its last place. -/
theorem abs_rounded_sub (q : ℚ) :
    |rounded q - q| = |halfEven (q / 2 ^ lastPlace q) - q / 2 ^ lastPlace q| * 2 ^ lastPlace q := by
  have hunit : (0 : ℚ) < 2 ^ lastPlace q := zpow_pos two_pos _
  rw [rounded, ← abs_of_pos hunit, ← abs_mul, abs_of_pos hunit, sub_mul,
    div_mul_cancel₀ _ hunit.ne']

theorem abs_rounded_sub_le (hq : 0 ≤ q) : |rounded q - q| ≤ 2 ^ lastPlace q / 2 := by
  have hunit : (0 : ℚ) < 2 ^ lastPlace q := zpow_pos two_pos _
  have hhalf := abs_halfEven_sub_le_half (div_nonneg hq hunit.le)
  rw [abs_rounded_sub]
  exact (mul_le_mul_of_nonneg_right hhalf hunit.le).trans_eq (one_div_mul_eq_div _ _)

theorem abs_rounded_sub_le_natCast_mul (hq : 0 ≤ q) (n : ℕ) :
    |rounded q - q| ≤ |n * 2 ^ lastPlace q - q| := by
  have hunit : (0 : ℚ) < 2 ^ lastPlace q := zpow_pos two_pos _
  have hdistance : |(n : ℚ) * 2 ^ lastPlace q - q| =
      |n - q / 2 ^ lastPlace q| * 2 ^ lastPlace q := by
    rw [← abs_of_pos hunit, ← abs_mul, abs_of_pos hunit, sub_mul, div_mul_cancel₀ _ hunit.ne']
  rw [abs_rounded_sub, hdistance]
  exact mul_le_mul_of_nonneg_right (abs_halfEven_sub_le (div_nonneg hq hunit.le) n) hunit.le

/-- Unless it is cut off by the least last place, a number is `2 ^ 52` units or more. -/
theorem two_pow_mul_lastPlace_le (hq : 0 < q) (h : lastPlace q ≤ Int.log 2 q - 52) :
    2 ^ 52 * 2 ^ lastPlace q ≤ q := by
  rw [← zpow_natCast, ← zpow_add₀ two_ne_zero]
  refine (zpow_le_zpow_right₀ one_le_two (?_ : _ ≤ Int.log 2 q)).trans ?_
  · push_cast
    omega
  · exact_mod_cast Int.zpow_log_le_self one_lt_two hq

theorem abs_rounded_sub_le_of_representable (hq : 0 < q) (hv : Representable v) :
    |rounded q - q| ≤ |v - q| := by
  obtain ⟨n, e, hn, he, rfl⟩ := hv
  rcases le_or_gt n 0 with hneg | hpos
  -- a number on the other side of zero is farther away than zero
  · have hzero := abs_rounded_sub_le_natCast_mul hq.le 0
    rw [Nat.cast_zero, zero_mul, zero_sub, abs_neg, abs_of_pos hq] at hzero
    have hv : (n * 2 ^ e : ℚ) ≤ 0 :=
      mul_nonpos_of_nonpos_of_nonneg (by exact_mod_cast hneg) (zpow_nonneg zero_le_two e)
    exact hzero.trans (le_abs.2 (.inr (by linarith)))
  obtain ⟨m, rfl⟩ := Int.eq_ofNat_of_zero_le hpos.le
  rw [Int.cast_natCast]
  have hm : m ≤ 2 ^ 53 := by
    rw [Nat.abs_cast] at hn
    exact_mod_cast hn
  rcases le_or_gt (lastPlace q) e with hle | hlt
  -- counted in units of the last place of `q`, a number with a larger unit is a whole number
  · have hunits : (m * 2 ^ e : ℚ) = (m * 2 ^ (e - lastPlace q).toNat : ℕ) * 2 ^ lastPlace q := by
      rw [Nat.cast_mul, Nat.cast_pow, Nat.cast_ofNat, mul_assoc, ← zpow_natCast,
        ← zpow_add₀ two_ne_zero]
      congr 2
      omega
    rw [hunits]
    exact abs_rounded_sub_le_natCast_mul hq.le _
  -- one with a smaller unit is at most the power of two below `q`
  · have hpow : 2 ^ 52 * 2 ^ lastPlace q ≤ q := by
      refine two_pow_mul_lastPlace_le hq ?_
      rw [lastPlace] at hlt ⊢
      omega
    have hv : (m * 2 ^ e : ℚ) ≤ 2 ^ 52 * 2 ^ lastPlace q := calc
      (m * 2 ^ e : ℚ) ≤ 2 ^ 53 * 2 ^ e :=
        mul_le_mul_of_nonneg_right (by exact_mod_cast hm) (zpow_nonneg zero_le_two e)
      _ = 2 ^ 52 * 2 ^ (e + 1) := by
        rw [zpow_add_one₀ two_ne_zero]
        ring
      _ ≤ 2 ^ 52 * 2 ^ lastPlace q :=
        mul_le_mul_of_nonneg_left (zpow_le_zpow_right₀ one_le_two hlt) (pow_nonneg zero_le_two _)
    have hnearest := abs_rounded_sub_le_natCast_mul hq.le (2 ^ 52)
    rw [Nat.cast_pow, Nat.cast_ofNat, abs_sub_comm (2 ^ 52 * 2 ^ lastPlace q),
      abs_of_nonneg (sub_nonneg.2 hpow)] at hnearest
    exact hnearest.trans (le_abs.2 (.inr (by linarith)))

/-! ## Rounding with a sign -/

/-- The value of the double nearest to `q`, if there were no largest one. -/
def toNearest (q : ℚ) : ℚ := if q < 0 then -rounded (-q) else rounded q

theorem toNearest_of_nonneg (hq : 0 ≤ q) : toNearest q = rounded q := if_neg hq.not_gt

@[simp] theorem toNearest_zero : toNearest 0 = 0 := by
  rw [toNearest_of_nonneg le_rfl, rounded_zero]

theorem toNearest_neg (q : ℚ) : toNearest (-q) = -toNearest q := by
  rcases lt_trichotomy q 0 with h | rfl | h
  · rw [toNearest_of_nonneg (neg_nonneg.2 h.le), toNearest, if_pos h, neg_neg]
  · rw [neg_zero, toNearest_zero, neg_zero]
  · rw [toNearest_of_nonneg h.le, toNearest, if_pos (neg_lt_zero.2 h), neg_neg]

theorem abs_toNearest (q : ℚ) : |toNearest q| = toNearest |q| := by
  rcases le_total 0 q with h | h
  · rw [abs_of_nonneg h, toNearest_of_nonneg h, abs_of_nonneg (rounded_nonneg q)]
  · rw [abs_of_nonpos h, ← abs_neg, ← toNearest_neg, toNearest_of_nonneg (neg_nonneg.2 h),
      abs_of_nonneg (rounded_nonneg _)]

theorem representable_toNearest (q : ℚ) : Representable (toNearest q) := by
  rcases lt_trichotomy q 0 with h | rfl | h
  · rw [toNearest, if_pos h]
    exact (representable_rounded (neg_pos.2 h)).neg
  · rw [toNearest_zero]
    exact representable_zero
  · rw [toNearest_of_nonneg h.le]
    exact representable_rounded h

theorem toNearest_mono (h : p ≤ q) : toNearest p ≤ toNearest q := by
  have hpos {p q : ℚ} (hp : 0 ≤ p) (h : p ≤ q) : rounded p ≤ rounded q := by
    rcases hp.eq_or_lt with rfl | hp
    · rw [rounded_zero]
      exact rounded_nonneg q
    · exact rounded_mono hp h
  rw [toNearest, toNearest]
  split
  · split
    · next hp hq => exact neg_le_neg (hpos (neg_nonneg.2 hq.le) (neg_le_neg h))
    · exact (neg_nonpos.2 (rounded_nonneg _)).trans (rounded_nonneg q)
  · next hp =>
    rw [if_neg (by linarith)]
    exact hpos (le_of_not_gt hp) h

theorem toNearest_nonneg (hq : 0 ≤ q) : 0 ≤ toNearest q := by
  rw [toNearest_of_nonneg hq]
  exact rounded_nonneg q

/-- What a number is rounded to is nearest to it. -/
theorem abs_toNearest_sub_le_of_representable (q : ℚ) (hv : Representable v) :
    |toNearest q - q| ≤ |v - q| := by
  rcases lt_trichotomy q 0 with h | rfl | h
  · have hnearest := abs_rounded_sub_le_of_representable (neg_pos.2 h) hv.neg
    rw [toNearest, if_pos h]
    rwa [← abs_neg, neg_sub', neg_neg, ← abs_neg (-v - -q), neg_sub', neg_neg, neg_neg] at hnearest
  · rw [toNearest_zero, sub_zero, abs_zero]
    exact abs_nonneg _
  · rw [toNearest_of_nonneg h.le]
    exact abs_rounded_sub_le_of_representable h hv

theorem Representable.toNearest_eq (hv : Representable v) : toNearest v = v := by
  have h := abs_toNearest_sub_le_of_representable v hv
  rw [sub_self, abs_zero, abs_nonpos_iff] at h
  exact sub_eq_zero.1 h

theorem Representable.le_toNearest (hv : Representable v) (h : v ≤ q) : v ≤ toNearest q :=
  hv.toNearest_eq ▸ toNearest_mono h

theorem Representable.toNearest_le (hv : Representable v) (h : q ≤ v) : toNearest q ≤ v :=
  hv.toNearest_eq ▸ toNearest_mono h

/-! ## How much is lost -/

theorem abs_toNearest_sub_eq (q : ℚ) : |toNearest q - q| = |rounded |q| - (|q|)| := by
  rcases le_or_gt 0 q with h | h
  · rw [toNearest_of_nonneg h, abs_of_nonneg h]
  · rw [toNearest, if_pos h, abs_of_neg h, ← abs_neg (rounded (-q) - -q), neg_sub', neg_neg]

/-- A number that is not small loses at most one part in `2 ^ 53` of itself. -/
theorem abs_toNearest_sub_le_of_le (h : 2 ^ 52 * leastUnit ≤ |q|) :
    |toNearest q - q| ≤ |q| / 2 ^ 53 := by
  have hq : 0 < |q| := (mul_pos (by norm_num) leastUnit_pos).trans_le h
  have hlog : -1022 ≤ Int.log 2 |q| := by
    refine (Int.zpow_le_iff_le_log one_lt_two hq).1 ?_
    rw [two_pow_mul_leastUnit] at h
    exact_mod_cast h
  have hnormal : 2 ^ 52 * 2 ^ lastPlace |q| ≤ |q| := by
    refine two_pow_mul_lastPlace_le hq ?_
    rw [lastPlace]
    omega
  rw [abs_toNearest_sub_eq]
  have hhalf := abs_rounded_sub_le hq.le
  linarith

/-- Nor does a number on the grid lose more, however small it is. -/
theorem IsGrid.abs_toNearest_sub_le (hq : IsGrid q) : |toNearest q - q| ≤ |q| / 2 ^ 53 := by
  rcases le_or_gt (2 ^ 52 * leastUnit) |q| with h | h
  · exact abs_toNearest_sub_le_of_le h
  · have hle : |q| ≤ 2 ^ 53 * leastUnit := by linarith [leastUnit_pos]
    rw [(hq.representable hle).toNearest_eq, sub_self, abs_zero]
    exact div_nonneg (abs_nonneg q) (by norm_num)

/-- Any other number loses at most half of the least unit in addition. -/
theorem abs_toNearest_sub_le (q : ℚ) :
    |toNearest q - q| ≤ |q| / 2 ^ 53 + leastUnit / 2 := by
  have hunit := leastUnit_pos
  rcases le_or_gt (2 ^ 52 * leastUnit) |q| with h | h
  · exact (abs_toNearest_sub_le_of_le h).trans (by linarith)
  rcases (abs_nonneg q).eq_or_lt with hzero | hpos
  · rw [abs_eq_zero.1 hzero.symm, toNearest_zero, sub_zero, abs_zero]
    linarith
  · have hlast : lastPlace |q| = -1074 := by
      rw [two_pow_mul_leastUnit] at h
      have hlog := (Int.lt_zpow_iff_log_lt one_lt_two hpos).1 (by exact_mod_cast h)
      rw [lastPlace]
      omega
    have hhalf := abs_rounded_sub_le hpos.le
    rw [abs_toNearest_sub_eq]
    rw [hlast] at hhalf
    exact hhalf.trans (le_add_of_nonneg_left (by positivity))

/-! ## What is too large and what is too small -/

/-- The greatest double. -/
def greatest : ℚ := (2 ^ 53 - 1) * greatestUnit

theorem greatest_pos : 0 < greatest := mul_pos (by norm_num) greatestUnit_pos

theorem greatest_lt : greatest < 2 ^ 53 * greatestUnit :=
  mul_lt_mul_of_pos_right (by norm_num) greatestUnit_pos

theorem representable_greatest : Representable greatest :=
  ⟨2 ^ 53 - 1, 971, by norm_num, by decide, by rw [greatest, greatestUnit]; norm_num⟩

/-- From here on, numbers are rounded to more than the greatest double: this is half a unit more. -/
def overflow : ℚ := (2 ^ 53 - 1 / 2) * greatestUnit

theorem overflow_pos : 0 < overflow := mul_pos (by norm_num) greatestUnit_pos

theorem greatest_lt_overflow : greatest < overflow :=
  mul_lt_mul_of_pos_right (by norm_num) greatestUnit_pos

theorem toNearest_overflow : toNearest overflow = 2 ^ 53 * greatestUnit := by
  have hunit := greatestUnit_pos
  have hlog : Int.log 2 overflow = 1023 := by
    have hlow : (2 : ℚ) ^ (1023 : ℤ) = 2 ^ 52 * greatestUnit := (two_pow_mul_greatestUnit 52).symm
    have hhigh : (2 : ℚ) ^ (1023 + 1 : ℤ) = 2 ^ 53 * greatestUnit :=
      (two_pow_mul_greatestUnit 53).symm
    refine log_eq ?_ ?_
    · rw [hlow, overflow]
      linarith only [hunit]
    · rw [hhigh, overflow]
      linarith only [hunit]
  have hlast : lastPlace overflow = 971 := by
    rw [lastPlace, hlog]
    rfl
  have hunits : overflow / 2 ^ lastPlace overflow = 2 ^ 53 - 1 / 2 := by
    rw [hlast]
    exact mul_div_cancel_right₀ _ hunit.ne'
  have hfloor : ⌊(2 ^ 53 - 1 / 2 : ℚ)⌋₊ = 2 ^ 53 - 1 := by
    rw [Nat.floor_eq_iff (by norm_num)]
    norm_num
  have htie : halfEven (2 ^ 53 - 1 / 2) = 2 ^ 53 := by
    rw [halfEven, hfloor]
    norm_num
  rw [toNearest_of_nonneg overflow_pos.le, rounded, hunits, htie, hlast, greatestUnit, Nat.cast_pow,
    Nat.cast_ofNat]

theorem abs_toNearest_lt_iff : |toNearest q| < 2 ^ 53 * greatestUnit ↔ |q| < overflow := by
  rw [abs_toNearest]
  generalize |q| = p
  refine ⟨fun h ↦ ?_, fun h ↦ ?_⟩
  · by_contra hge
    rw [← toNearest_overflow] at h
    exact h.not_ge (toNearest_mono (le_of_not_gt hge))
  -- the greatest double is nearer than the power of two above it
  · have hunit := greatestUnit_pos
    have hnearest := abs_toNearest_sub_le_of_representable p representable_greatest
    rw [overflow] at h
    rcases le_total p greatest with hle | hle
    · have hmono := representable_greatest.toNearest_le hle
      rw [greatest] at hmono
      linarith
    · rw [abs_sub_comm greatest, abs_of_nonneg (sub_nonneg.2 hle), greatest] at hnearest
      linarith [le_abs_self (toNearest p - p)]

/-- Small numbers are rounded to whole numbers of the least unit. -/
theorem toNearest_mul_leastUnit (hq : 0 ≤ q) (hlt : q < 2 ^ 53) :
    toNearest (q * leastUnit) = halfEven q * leastUnit := by
  have hunit := leastUnit_pos
  rcases hq.eq_or_lt with rfl | hpos
  · have hzero : halfEven 0 = 0 := by exact_mod_cast halfEven_natCast 0
    rw [zero_mul, toNearest_zero, hzero, Nat.cast_zero, zero_mul]
  · have hlast : lastPlace (q * leastUnit) = -1074 := by
      have hlog : Int.log 2 (q * leastUnit) < -1021 := by
        refine (Int.lt_zpow_iff_log_lt one_lt_two (mul_pos hpos hunit)).1 ?_
        have hpow : ((2 : ℕ) : ℚ) ^ (-1021 : ℤ) = 2 ^ 53 * leastUnit :=
          (two_pow_mul_leastUnit 53).symm
        rw [hpow]
        exact mul_lt_mul_of_pos_right hlt hunit
      rw [lastPlace]
      omega
    have hunits : q * leastUnit / 2 ^ (-1074 : ℤ) = q := mul_div_cancel_right₀ _ hunit.ne'
    rw [toNearest_of_nonneg (mul_nonneg hq hunit.le), rounded, hlast, hunits, leastUnit]

/-- The middle between two units is rounded to the even one. -/
theorem toNearest_half_leastUnit : toNearest (1 / 2 * leastUnit) = 0 := by
  have htie : halfEven (1 / 2) = 0 := by norm_num [halfEven]
  rw [toNearest_mul_leastUnit (by norm_num) (by norm_num), htie, Nat.cast_zero, zero_mul]

theorem toNearest_three_halves_leastUnit : toNearest (3 / 2 * leastUnit) = 2 * leastUnit := by
  have hfloor : ⌊(3 / 2 : ℚ)⌋₊ = 1 := by
    rw [Nat.floor_eq_iff (by norm_num)]
    norm_num
  have htie : halfEven (3 / 2) = 2 := by
    rw [halfEven, hfloor]
    norm_num
  rw [toNearest_mul_leastUnit (by norm_num) (by norm_num), htie, Nat.cast_ofNat]

theorem toNearest_eq_zero_iff : toNearest q = 0 ↔ |q| ≤ leastUnit / 2 := by
  rw [← abs_eq_zero, abs_toNearest]
  generalize hp : |q| = p
  have hpos : 0 ≤ p := hp ▸ abs_nonneg q
  refine ⟨fun h ↦ ?_, fun h ↦ ?_⟩
  -- the least unit is no nearer than zero
  · have hunit := leastUnit_pos
    have hleast : Representable leastUnit := representable_zpow le_rfl
    have hnearest := abs_toNearest_sub_le_of_representable p hleast
    rw [h, zero_sub, abs_neg, abs_of_nonneg hpos] at hnearest
    rcases abs_cases (leastUnit - p) with ⟨habs, -⟩ | ⟨habs, -⟩ <;> linarith
  · refine le_antisymm ?_ (toNearest_nonneg hpos)
    rw [← toNearest_half_leastUnit, one_div_mul_eq_div]
    exact toNearest_mono h

end Double

end OrbitPlot
