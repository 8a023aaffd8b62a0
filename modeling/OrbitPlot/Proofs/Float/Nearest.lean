import OrbitPlot.Proofs.Float.Unpacked

/-!
# Rounding to the nearest double

The form nearest to a positive number is found by counting in units of the last place, which depends
on the size of the number, and rounding the count to a whole number, to the even one if two are
equally near. `nearest` says so for rational numbers. The arithmetic of doubles counts in whole
numbers throughout: it drops one bit after another and keeps two bits about what was dropped, which
are enough to round in the end.

## Main statements

* `roundWithAccuracy_eq`: rounding a mantissa gives the nearest form.
* `nearest_of_canonical`: a number that is the value of a form is rounded to that form.
* `rounded_mono`: rounding keeps the order.
-/

namespace OrbitPlot

namespace Double

open Float.Model Float.Model.UnpackedFloat

/-- The whole number nearest to `q`, the even one if two are equally near. -/
def halfEven (q : ℚ) : Nat :=
  if q - ⌊q⌋₊ < 1 / 2 then ⌊q⌋₊
  else if q - ⌊q⌋₊ = 1 / 2 then ⌊q⌋₊ + ⌊q⌋₊ % 2
  else ⌊q⌋₊ + 1

/-- The exponent of the last place of forms about as large as `q`. -/
def lastPlace (q : ℚ) : Int := max (Int.log 2 q - 52) (-1074)

/-- The form with a mantissa that may be zero. -/
def ofMantissa (s : Sign) (n : Nat) (e : Int) : UnpackedFloat :=
  if h : n = 0 then .zero s else .finite s n e (Nat.pos_of_ne_zero h)

/-- The form nearest to the positive number `q`, with a sign. Its exponent need not fit. -/
def nearest (s : Sign) (q : ℚ) : UnpackedFloat :=
  if halfEven (q / 2 ^ lastPlace q) = 2 ^ 53 then ofMantissa s (2 ^ 52) (lastPlace q + 1)
  else ofMantissa s (halfEven (q / 2 ^ lastPlace q)) (lastPlace q)

/-! ## What two bits tell -/

/-- A mantissa and two bits tell where `q` lies: on a whole number, or below, on or above the middle
between two of them. -/
def Locates (em : ExtendedMantissa) (q : ℚ) : Prop :=
  match em with
  | ⟨n, false, false⟩ => q = n
  | ⟨n, false, true⟩ => n < q ∧ q < n + 1 / 2
  | ⟨n, true, false⟩ => q = n + 1 / 2
  | ⟨n, true, true⟩ => n + 1 / 2 < q ∧ q < n + 1

namespace Locates

variable {em : ExtendedMantissa} {q : ℚ}

theorem bounds (h : Locates em q) : em.mantissa ≤ q ∧ q < em.mantissa + 1 := by
  obtain ⟨n, _ | _, _ | _⟩ := em <;> simp only [Locates] at h <;> constructor <;> linarith

theorem floor_eq (h : Locates em q) : ⌊q⌋₊ = em.mantissa :=
  (Nat.floor_eq_iff (h.bounds.1.trans' (Nat.cast_nonneg _))).2 h.bounds

/-- The two bits are enough to round. -/
theorem roundedMantissa_eq (h : Locates em q) : em.roundedMantissa = halfEven q := by
  rw [halfEven, h.floor_eq]
  obtain ⟨n, _ | _, _ | _⟩ := em <;> simp only [Locates] at h
  · rw [if_pos (by linarith)]; rfl
  · rw [if_pos (by linarith)]; rfl
  · rw [if_neg (by linarith), if_pos (by linarith)]; rfl
  · rw [if_neg (by linarith), if_neg (by linarith)]; rfl

theorem shiftRightOne (h : Locates em q) : Locates em.shiftRightOne (q / 2) := by
  obtain ⟨n, round, sticky⟩ := em
  -- the bit that is dropped becomes the round bit, and what was the round bit only tells whether
  -- there is a remainder
  obtain ⟨k, rfl | rfl⟩ := n.even_or_odd'
  · have hdiv : 2 * k / 2 = k := by omega
    have hmod : 2 * k % 2 = 0 := by omega
    cases round <;> cases sticky <;>
      simp only [Locates, ExtendedMantissa.shiftRightOne, hdiv, hmod, Nat.cast_mul,
        Nat.cast_ofNat] at h ⊢
    · exact (div_eq_iff two_ne_zero).2 (h.trans (mul_comm _ _))
    all_goals exact ⟨by linarith, by linarith⟩
  · have hdiv : (2 * k + 1) / 2 = k := by omega
    have hmod : (2 * k + 1) % 2 = 1 := by omega
    cases round <;> cases sticky <;>
      simp only [Locates, ExtendedMantissa.shiftRightOne, hdiv, hmod, Nat.cast_add, Nat.cast_mul,
        Nat.cast_ofNat, Nat.cast_one] at h ⊢
    · show q / 2 = k + 1 / 2
      linarith
    all_goals exact ⟨by linarith, by linarith⟩

theorem shiftRight (h : Locates em q) (k : Nat) : Locates (em >>> k) (q / 2 ^ k) := by
  induction k with
  | zero => rwa [pow_zero, div_one]
  | succ k ih =>
    rw [pow_succ, ← div_div]
    exact ih.shiftRightOne

end Locates

theorem locates_exact (n : Nat) : Locates (.ofMantissaAndAccuracy n .exact) n := rfl

/-- A remainder tells where a quotient lies. -/
theorem locates_fraction (a : Nat) {b : Nat} (hb : 0 < b) :
    Locates (.ofMantissaAndAccuracy (a / b) (accuracyOfFraction (a % b) b)) (a / b) := by
  have hb' : (0 : ℚ) < b := by exact_mod_cast hb
  have hr : ((a % b : Nat) : ℚ) / b < 1 := by
    rw [div_lt_one hb']
    exact_mod_cast Nat.mod_lt a hb
  have hdiv : (a / b : ℚ) = (a / b : Nat) + (a % b : Nat) / b := by
    have : (a : ℚ) = b * (a / b : Nat) + (a % b : Nat) := by
      exact_mod_cast (Nat.div_add_mod a b).symm
    rw [this, add_div, mul_div_cancel_left₀ _ hb'.ne']
  rw [accuracyOfFraction, hdiv]
  by_cases hzero : a % b = 0
  · rw [if_pos hzero, hzero, Nat.cast_zero, zero_div, add_zero]
    exact locates_exact _
  have hpos : 0 < ((a % b : Nat) : ℚ) / b :=
    div_pos (by exact_mod_cast Nat.pos_of_ne_zero hzero) hb'
  rw [if_neg hzero]
  cases hcompare : compare (2 * (a % b)) b with
  | lt =>
    have hlt : (2 * (a % b : Nat) : ℚ) < b := by exact_mod_cast Nat.compare_eq_lt.1 hcompare
    have hhalf : ((a % b : Nat) : ℚ) / b < 1 / 2 := by
      rw [div_lt_iff₀ hb']
      linarith
    exact ⟨by linarith, by linarith⟩
  | eq =>
    have heq : (2 * (a % b : Nat) : ℚ) = b := by exact_mod_cast Nat.compare_eq_eq.1 hcompare
    have hhalf : ((a % b : Nat) : ℚ) / b = 1 / 2 := by
      rw [div_eq_iff hb'.ne']
      linarith
    exact congrArg _ hhalf
  | gt =>
    have hgt : (b : ℚ) < 2 * (a % b : Nat) := by exact_mod_cast Nat.compare_eq_gt.1 hcompare
    have hhalf : 1 / 2 < ((a % b : Nat) : ℚ) / b := by
      rw [lt_div_iff₀ hb']
      linarith
    exact ⟨by linarith, by linarith⟩

/-! ## Rounding -/

theorem natCast_mul_zpow_pos {m : Nat} (hm : 0 < m) (e : Int) : (0 : ℚ) < m * 2 ^ e :=
  mul_pos (by exact_mod_cast hm) (zpow_pos two_pos e)

theorem log_eq {q : ℚ} {k : Int} (hlow : 2 ^ k ≤ q) (hhigh : q < 2 ^ (k + 1)) :
    Int.log 2 q = k := by
  have hq : 0 < q := (zpow_pos two_pos k).trans_le hlow
  have hle := (Int.zpow_le_iff_le_log one_lt_two hq).1 (by exact_mod_cast hlow)
  have hlt := (Int.lt_zpow_iff_log_lt one_lt_two hq).1 (by exact_mod_cast hhigh)
  omega

theorem targetExponent_eq_max (t : Int) :
    Format.binary64.targetExponent t = max (t - 53) (-1074) := rfl

theorem targetExponent_eq {m : Nat} {e : Int} {q : ℚ} (hq : 0 < q) (hlow : m ≤ q / 2 ^ e)
    (hhigh : q / 2 ^ e < m + 1) (he : m = 0 → e ≤ lastPlace q) :
    Format.binary64.targetExponent (totalExponent m e) = lastPlace q := by
  have hpow : (0 : ℚ) < 2 ^ e := zpow_pos two_pos e
  rw [targetExponent_eq_max, lastPlace, totalExponent]
  rcases m.eq_zero_or_pos with rfl | hm
  · have hlog : Int.log 2 q < e := by
      refine (Int.lt_zpow_iff_log_lt one_lt_two hq).1 ?_
      have := (div_lt_one hpow).1 (by simpa using hhigh)
      exact_mod_cast this
    have he := he rfl
    rw [lastPlace] at he
    rw [Nat.log2_zero]
    omega
  · have hlog : Int.log 2 q = m.log2 + e := by
      refine log_eq ?_ ?_
      · rw [zpow_add₀ two_ne_zero, ← le_div_iff₀ hpow]
        refine le_trans ?_ hlow
        exact_mod_cast Nat.log2_self_le hm.ne'
      · rw [add_right_comm, zpow_add₀ two_ne_zero, ← div_lt_iff₀ hpow]
        refine hhigh.trans_le ?_
        exact_mod_cast Nat.lt_log2_self
    rw [hlog]
    omega

theorem halfEven_le {q : ℚ} {n : Nat} (hq : 0 ≤ q) (h : q < n) : halfEven q ≤ n := by
  have hfloor : ⌊q⌋₊ < n := (Nat.floor_lt hq).2 h
  rw [halfEven]
  split
  · exact hfloor.le
  · split
    · omega
    · exact hfloor

theorem div_lastPlace_lt {q : ℚ} (hq : 0 < q) : q / 2 ^ lastPlace q < 2 ^ 53 := by
  rw [div_lt_iff₀ (zpow_pos two_pos _), ← zpow_natCast, ← zpow_add₀ two_ne_zero]
  have hlog : Int.log 2 q < ((53 : Nat) : Int) + lastPlace q := by
    rw [lastPlace]
    omega
  exact_mod_cast (Int.lt_zpow_iff_log_lt one_lt_two hq).2 hlog

theorem halfEven_lastPlace_le {q : ℚ} (hq : 0 < q) : halfEven (q / 2 ^ lastPlace q) ≤ 2 ^ 53 :=
  halfEven_le (div_nonneg hq.le (zpow_nonneg zero_le_two _)) (by exact_mod_cast div_lastPlace_lt hq)

theorem shiftToTargetExponent_eq {m : Nat} {e t : Int} (acc : Accuracy)
    (ht : Format.binary64.targetExponent (totalExponent m e) = t) (he : e ≤ t) :
    shiftToTargetExponent .binary64 m e acc =
      (ExtendedMantissa.ofMantissaAndAccuracy m acc >>> (t - e).toNat, t) := by
  rw [shiftToTargetExponent, ht, shiftToExponent]
  refine Prod.ext rfl ?_
  change e + (t - e).toNat = t
  omega

theorem shiftToTargetExponent_of_lt {n : Nat} {t : Int} (hn : n < 2 ^ 53) (ht : -1074 ≤ t) :
    shiftToTargetExponent .binary64 n t .exact = (⟨n, false, false⟩, t) := by
  have hlog : n.log2 < 53 := by
    rcases n.eq_zero_or_pos with rfl | hpos
    · decide
    · exact (Nat.log2_lt hpos.ne').2 hn
  have hshift : (Format.binary64.targetExponent (totalExponent n t) - t).toNat = 0 := by
    rw [targetExponent_eq_max, totalExponent]
    omega
  rw [shiftToTargetExponent, shiftToExponent, hshift]
  exact Prod.ext rfl (Int.add_zero t)

theorem shiftToTargetExponent_two_pow {t : Int} (ht : -1074 ≤ t) :
    shiftToTargetExponent .binary64 (2 ^ 53) t .exact = (⟨2 ^ 52, false, false⟩, t + 1) := by
  have htarget : Format.binary64.targetExponent (totalExponent (2 ^ 53) t) = t + 1 := by
    rw [targetExponent_eq_max, totalExponent, Nat.log2_two_pow]
    omega
  rw [shiftToTargetExponent_eq .exact htarget (by omega), show (t + 1 - t).toNat = 1 by omega]
  rfl

/-- Rounding a mantissa that is not counted too coarsely gives the nearest form. -/
theorem roundWithAccuracy_eq {s : Sign} {m : Nat} {e : Int} {acc : Accuracy} {q : ℚ} (hq : 0 < q)
    (h : Locates (.ofMantissaAndAccuracy m acc) (q / 2 ^ e)) (he : e ≤ lastPlace q) :
    roundWithAccuracy .binary64 s m e acc = nearest s q := by
  have hmantissa : (ExtendedMantissa.ofMantissaAndAccuracy m acc).mantissa = m := by
    unfold ExtendedMantissa.ofMantissaAndAccuracy
    split <;> rfl
  have hbounds := h.bounds
  rw [hmantissa] at hbounds
  have hfirst := shiftToTargetExponent_eq acc
    (targetExponent_eq hq hbounds.1 hbounds.2 fun _ ↦ he) he
  have hlocates : Locates (ExtendedMantissa.ofMantissaAndAccuracy m acc >>> (lastPlace q - e).toNat)
      (q / 2 ^ lastPlace q) := by
    have hpow : (2 : ℚ) ^ lastPlace q = 2 ^ e * 2 ^ (lastPlace q - e).toNat := by
      rw [← zpow_natCast, ← zpow_add₀ two_ne_zero]
      congr 1
      omega
    rw [hpow, ← div_div]
    exact h.shiftRight _
  have hn := halfEven_lastPlace_le hq
  have hplace : -1074 ≤ lastPlace q := le_max_right _ _
  -- after rounding, the mantissa may have become one bit too long
  have hround : roundWithAccuracy .binary64 s m e acc =
      let second := shiftToTargetExponent .binary64 (halfEven (q / 2 ^ lastPlace q)) (lastPlace q)
        .exact
      ofMantissa s second.1.mantissa second.2 := by
    rw [roundWithAccuracy, hfirst, ← hlocates.roundedMantissa_eq]
    rfl
  rw [hround, nearest]
  rcases hn.lt_or_eq with hn | hn
  · rw [shiftToTargetExponent_of_lt hn hplace, if_neg hn.ne]
  · rw [hn, shiftToTargetExponent_two_pow hplace, if_pos rfl]

/-! ## The nearest form -/

theorem le_halfEven {q : ℚ} {n : Nat} (h : n ≤ q) : n ≤ halfEven q := by
  have hfloor : n ≤ ⌊q⌋₊ := Nat.le_floor h
  rw [halfEven]
  split
  · exact hfloor
  · split <;> omega

theorem halfEven_natCast (n : Nat) : halfEven n = n := by
  rw [halfEven, Nat.floor_natCast, sub_self, if_pos (by norm_num)]

theorem halfEven_mono {p q : ℚ} (hp : 0 ≤ p) (h : p ≤ q) : halfEven p ≤ halfEven q := by
  have hnext : halfEven p ≤ ⌊p⌋₊ + 1 :=
    halfEven_le hp (by exact_mod_cast Nat.lt_floor_add_one p)
  rcases (Nat.floor_mono h).lt_or_eq with hlt | heq
  · exact (hnext.trans hlt).trans (le_halfEven (Nat.floor_le (hp.trans h)))
  -- between the same whole numbers, it depends on which side of the middle the larger one lies
  · have hfrac : p - ⌊q⌋₊ ≤ q - ⌊q⌋₊ := sub_le_sub_right h _
    rcases lt_trichotomy (q - ⌊q⌋₊) (1 / 2) with hq | hq | hq
    · rw [halfEven, halfEven, heq, if_pos hq, if_pos (hfrac.trans_lt hq)]
    · rw [halfEven, halfEven, heq, hq, if_neg (lt_irrefl _), if_pos rfl]
      rcases (hfrac.trans_eq hq).lt_or_eq with hp | hp
      · rw [if_pos hp]
        exact Nat.le_add_right _ _
      · rw [if_neg hp.not_lt, if_pos hp]
    · rw [halfEven.eq_def q, if_neg hq.not_gt, if_neg hq.ne', ← heq]
      exact hnext

/-- Unless the last place is the least of all, the mantissa has its leading one. -/
theorem two_pow_le_halfEven {q : ℚ} (hq : 0 < q) (h : -1074 < lastPlace q) :
    2 ^ 52 ≤ halfEven (q / 2 ^ lastPlace q) := by
  have hlast : ((52 : Nat) : Int) + lastPlace q = Int.log 2 q := by
    rw [lastPlace] at h ⊢
    omega
  refine le_halfEven ?_
  rw [le_div_iff₀ (zpow_pos two_pos _), Nat.cast_pow, ← zpow_natCast, Nat.cast_ofNat,
    ← zpow_add₀ two_ne_zero, hlast]
  exact_mod_cast Int.zpow_log_le_self one_lt_two hq

theorem canonical_nearest (s : Sign) {q : ℚ} (hq : 0 < q) : Canonical (nearest s q) := by
  have hle := halfEven_lastPlace_le hq
  have hplace : -1074 ≤ lastPlace q := le_max_right _ _
  rw [nearest]
  split
  · exact ⟨by decide, .inr ⟨by omega, le_rfl⟩⟩
  · next hne =>
    rw [ofMantissa]
    split
    · trivial
    · refine ⟨lt_of_le_of_ne hle hne, ?_⟩
      rcases hplace.eq_or_lt with heq | hlt
      · exact .inl heq.symm
      · exact .inr ⟨hplace, two_pow_le_halfEven hq hlt⟩

theorem zpow_log2_le {m : Nat} (hm : 0 < m) (e : Int) :
    (2 : ℚ) ^ (m.log2 + e) ≤ m * 2 ^ e := by
  rw [zpow_add₀ two_ne_zero]
  refine mul_le_mul_of_nonneg_right ?_ (zpow_nonneg zero_le_two e)
  exact_mod_cast Nat.log2_self_le hm.ne'

theorem lt_zpow_log2 (m : Nat) (e : Int) : (m * 2 ^ e : ℚ) < 2 ^ (m.log2 + e + 1) := by
  rw [add_right_comm, zpow_add₀ two_ne_zero]
  refine mul_lt_mul_of_pos_right ?_ (zpow_pos two_pos e)
  exact_mod_cast Nat.lt_log2_self

theorem log_natCast_mul {m : Nat} (hm : 0 < m) (e : Int) :
    Int.log 2 (m * 2 ^ e : ℚ) = m.log2 + e :=
  log_eq (zpow_log2_le hm e) (lt_zpow_log2 m e)

theorem lastPlace_natCast_mul {m : Nat} (hm : 0 < m) (e : Int) :
    lastPlace (m * 2 ^ e) = max (m.log2 + e - 52) (-1074) := by
  rw [lastPlace, log_natCast_mul hm]

/-- A number that is the value of a form is rounded to that form. -/
theorem nearest_of_canonical {s : Sign} {m : Nat} {e : Int} {hm : 0 < m}
    (h : Canonical (.finite s m e hm)) : nearest s (m * 2 ^ e) = .finite s m e hm := by
  obtain ⟨hlt, hexp⟩ := h
  have hlast : lastPlace (m * 2 ^ e) = e := by
    have hlog : m.log2 < 53 := (Nat.log2_lt hm.ne').2 hlt
    rw [lastPlace_natCast_mul hm]
    rcases hexp with rfl | ⟨hexp, hnormal⟩
    · omega
    · have hlog' : 52 ≤ m.log2 := (Nat.le_log2 hm.ne').2 hnormal
      omega
  rw [nearest, hlast, mul_div_cancel_right₀ _ (zpow_ne_zero e two_ne_zero), halfEven_natCast,
    if_neg hlt.ne, ofMantissa, dif_neg hm.ne']

/-- The value of the form nearest to `q`. -/
def rounded (q : ℚ) : ℚ := halfEven (q / 2 ^ lastPlace q) * 2 ^ lastPlace q

theorem rounded_mono {p q : ℚ} (hp : 0 < p) (h : p ≤ q) : rounded p ≤ rounded q := by
  have hq := hp.trans_le h
  have hlog : Int.log 2 p ≤ Int.log 2 q := Int.log_mono_right hp h
  have hplace : lastPlace p ≤ lastPlace q := by
    rw [lastPlace, lastPlace]
    omega
  rw [rounded, rounded]
  rcases hplace.eq_or_lt with heq | hlt
  · have hunits : p / 2 ^ lastPlace q ≤ q / 2 ^ lastPlace q :=
      div_le_div_of_nonneg_right h (zpow_nonneg zero_le_two _)
    rw [heq]
    refine mul_le_mul_of_nonneg_right ?_ (zpow_nonneg zero_le_two _)
    exact_mod_cast halfEven_mono (div_nonneg hp.le (zpow_nonneg zero_le_two _)) hunits
  -- with different last places, a power of two lies between the two
  · have hle : (halfEven (p / 2 ^ lastPlace p) : ℚ) ≤ 2 ^ 53 := by
      exact_mod_cast halfEven_lastPlace_le hp
    have hge : (2 ^ 52 : ℚ) ≤ halfEven (q / 2 ^ lastPlace q) := by
      exact_mod_cast two_pow_le_halfEven hq ((le_max_right _ _).trans_lt hlt)
    calc halfEven (p / 2 ^ lastPlace p) * (2 : ℚ) ^ lastPlace p
      _ ≤ 2 ^ 53 * 2 ^ lastPlace p := mul_le_mul_of_nonneg_right hle (zpow_nonneg zero_le_two _)
      _ = 2 ^ 52 * 2 ^ (lastPlace p + 1) := by
        rw [zpow_add_one₀ two_ne_zero]
        ring
      _ ≤ 2 ^ 52 * 2 ^ lastPlace q :=
        mul_le_mul_of_nonneg_left (zpow_le_zpow_right₀ one_le_two hlt) (pow_nonneg zero_le_two _)
      _ ≤ halfEven (q / 2 ^ lastPlace q) * 2 ^ lastPlace q :=
        mul_le_mul_of_nonneg_right hge (zpow_nonneg zero_le_two _)

theorem nearest_ne_zero {s s' : Sign} {q : ℚ} (hq : 2 ^ (-1074 : Int) ≤ q) :
    nearest s q ≠ .zero s' := by
  have hpos : 0 < q := (zpow_pos two_pos _).trans_le hq
  have hone : 1 ≤ halfEven (q / 2 ^ lastPlace q) := by
    have hlog := (Int.zpow_le_iff_le_log one_lt_two hpos).1 (by exact_mod_cast hq)
    refine le_halfEven ?_
    rw [Nat.cast_one, one_le_div (zpow_pos two_pos _)]
    refine le_trans ?_ (Int.zpow_log_le_self one_lt_two hpos)
    refine zpow_le_zpow_right₀ one_le_two ?_
    rw [lastPlace]
    omega
  rw [nearest]
  split
  · nofun
  · rw [ofMantissa, dif_neg (by omega)]
    nofun

theorem nearest_of_lt {s : Sign} {q : ℚ} (hq : 0 < q) (h : q < 2 ^ (-1075 : Int)) :
    nearest s q = .zero s := by
  have hlast : lastPlace q = -1074 := by
    have hlog := (Int.lt_zpow_iff_log_lt one_lt_two hq).1 (by exact_mod_cast h)
    rw [lastPlace]
    omega
  have hhalf : q / 2 ^ (-1074 : Int) < 1 / 2 := by
    rw [div_lt_iff₀ (zpow_pos two_pos _), one_div, ← zpow_neg_one, ← zpow_add₀ two_ne_zero]
    exact h
  have hzero : halfEven (q / 2 ^ (-1074 : Int)) = 0 := by
    have hfloor : ⌊q / 2 ^ (-1074 : Int)⌋₊ = 0 := Nat.floor_eq_zero.2 (by linarith)
    rw [halfEven, hfloor, if_pos (by simpa using hhalf)]
  rw [nearest, hlast, hzero]
  rfl

theorem saturate_nearest_of_le {s : Sign} {q : ℚ} (h : 2 ^ (1024 : Int) ≤ q) :
    saturate (nearest s q) = .infinity s := by
  have hpos : 0 < q := (zpow_pos two_pos _).trans_le h
  have hlog : 1024 ≤ Int.log 2 q := (Int.zpow_le_iff_le_log one_lt_two hpos).1 h
  have hlast : 971 < lastPlace q := by
    rw [lastPlace]
    omega
  have hne := two_pow_le_halfEven hpos (by omega)
  rw [nearest]
  split
  · exact if_neg (by omega)
  · rw [ofMantissa, dif_neg (by omega)]
    exact if_neg (by omega)

/-! ## Operations -/

theorem roundWithAccuracy_exact {s : Sign} {m : Nat} {e : Int} (hm : 0 < m)
    (he : e ≤ lastPlace (m * 2 ^ e)) :
    roundWithAccuracy .binary64 s m e .exact = nearest s (m * 2 ^ e) := by
  refine roundWithAccuracy_eq (natCast_mul_zpow_pos hm e) ?_ he
  rw [mul_div_cancel_right₀ _ (zpow_ne_zero e two_ne_zero)]
  exact locates_exact m

theorem round_eq {s : Sign} {m : Nat} {e : Int} (hm : 0 < m) :
    UnpackedFloat.round .binary64 s m e = nearest s (m * 2 ^ e) := by
  generalize hk : (e - Format.binary64.targetExponent (totalExponent m e)).toNat = k
  have hvalue : ((m <<< k : Nat) : ℚ) * 2 ^ (e - k) = m * 2 ^ e := by
    rw [Nat.shiftLeft_eq, Nat.cast_mul, Nat.cast_pow, Nat.cast_ofNat, mul_assoc, ← zpow_natCast,
      ← zpow_add₀ two_ne_zero, add_sub_cancel]
  have hround : UnpackedFloat.round .binary64 s m e =
      roundWithAccuracy .binary64 s (m <<< k) (e - k) .exact := by
    rw [UnpackedFloat.round, decreaseExponent, hk]
  rw [targetExponent_eq_max, totalExponent] at hk
  rw [hround, roundWithAccuracy_exact, hvalue]
  · exact (Nat.shiftLeft_eq m k).symm ▸ Nat.mul_pos hm (Nat.two_pow_pos k)
  · rw [hvalue, lastPlace_natCast_mul hm]
    omega

theorem mul_eq {s₁ s₂ : Sign} {m₁ m₂ : Nat} {e₁ e₂ : Int} (h₁ : 0 < m₁) (h₂ : 0 < m₂)
    (h : 2 ^ 52 ≤ m₁ * m₂ ∨ e₁ + e₂ ≤ -1074) :
    UnpackedFloat.mul .binary64 (.finite s₁ m₁ e₁ h₁) (.finite s₂ m₂ e₂ h₂) =
      nearest (s₁ * s₂) (m₁ * 2 ^ e₁ * (m₂ * 2 ^ e₂)) := by
  have hm : 0 < m₁ * m₂ := Nat.mul_pos h₁ h₂
  have hvalue : (m₁ * 2 ^ e₁ * (m₂ * 2 ^ e₂) : ℚ) = (m₁ * m₂ : Nat) * 2 ^ (e₁ + e₂) := by
    rw [zpow_add₀ two_ne_zero, Nat.cast_mul]
    ring
  rw [hvalue, UnpackedFloat.mul, roundWithAccuracy_exact hm]
  rw [lastPlace_natCast_mul hm]
  rcases h with h | h
  · have hlog : 52 ≤ (m₁ * m₂).log2 := (Nat.le_log2 hm.ne').2 h
    omega
  · omega

theorem div_eq {s₁ s₂ : Sign} {m₁ m₂ : Nat} {e₁ e₂ : Int} (h₁ : 0 < m₁) (h₂ : 0 < m₂) :
    UnpackedFloat.div .binary64 (.finite s₁ m₁ e₁ h₁) (.finite s₂ m₂ e₂ h₂) =
      nearest (s₁ / s₂) (m₁ * 2 ^ e₁ / (m₂ * 2 ^ e₂)) := by
  have hx := natCast_mul_zpow_pos h₁ e₁
  have hy := natCast_mul_zpow_pos h₂ e₂
  have hq := div_pos hx hy
  -- the quotient of the bounds of the parts is a bound of the quotient, one place too low at worst
  have hlog : m₁.log2 + e₁ - (m₂.log2 + e₂ + 1) ≤ Int.log 2 (m₁ * 2 ^ e₁ / (m₂ * 2 ^ e₂) : ℚ) := by
    refine (Int.zpow_le_iff_le_log one_lt_two hq).1 ?_
    rw [Nat.cast_ofNat, zpow_sub₀ two_ne_zero]
    exact div_le_div₀ hx.le (zpow_log2_le h₁ e₁) hy (lt_zpow_log2 m₂ e₂).le
  rw [UnpackedFloat.div, divCore, targetExponent_eq_max, totalExponent, totalExponent]
  dsimp only
  generalize ht : min (e₁ - e₂) (max (m₁.log2 + 1 + e₁ - (m₂.log2 + 1 + e₂) - 53) (-1074)) = t
  generalize hk : (e₁ - e₂ - t).toNat = k
  refine roundWithAccuracy_eq hq ?_ ?_
  · have hquotient : (m₁ * 2 ^ e₁ / (m₂ * 2 ^ e₂) / 2 ^ t : ℚ) = (m₁ <<< k : Nat) / m₂ := by
      have hexp : e₁ = k + t + e₂ := by omega
      rw [hexp, Nat.shiftLeft_eq, zpow_add₀ two_ne_zero, zpow_add₀ two_ne_zero, zpow_natCast,
        Nat.cast_mul, Nat.cast_pow, Nat.cast_ofNat]
      field_simp
    rw [hquotient]
    exact locates_fraction _ h₂
  · rw [lastPlace]
    omega

end Double

end OrbitPlot
