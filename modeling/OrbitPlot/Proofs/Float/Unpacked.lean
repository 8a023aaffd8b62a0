import Mathlib

/-!
# Doubles and their unpacked forms

A double is a pattern of bits. Its arithmetic is defined on unpacked forms: a sign and, if the
double is finite and not zero, a mantissa and an exponent. Every double has one unpacked form, which
is `Canonical`, and is given back by packing it; so a double can be studied through its unpacked
form alone.

## Main statements

* `unpacked_ofUnpacked`: unpacking undoes packing on canonical forms.
* `ofUnpacked_unpacked`: packing undoes unpacking.
-/

namespace OrbitPlot

namespace Double

open Float.Model Float.Model.UnpackedFloat

/-- The unpacked form of a double. -/
def unpacked (x : Float) : UnpackedFloat := x.toModel.unpack

/-- The double that an unpacked form is packed into. -/
def ofUnpacked (u : UnpackedFloat) : Float := .ofModel (.pack u)

/-- The form of a double as large as the exponent allows or larger: a mantissa of 53 bits, or one of
fewer bits and the least exponent. -/
def Canonical : UnpackedFloat → Prop
  | .finite _ m e _ => m < 2 ^ 53 ∧ (e = -1074 ∨ -1074 ≤ e ∧ 2 ^ 52 ≤ m)
  | _ => True

/-- What is left of a form when its exponent does not fit. -/
def saturate : UnpackedFloat → UnpackedFloat
  | .finite s m e h => if e ≤ 971 then .finite s m e h else .infinity s
  | u => u

/-! ## Fields of bits -/

theorem exists_packComponents (spec : Format) (b : BitVec spec.numBits) :
    ∃ s k f, b = packComponents spec s k f :=
  ⟨_, _, _, (packComponents_unpackSign_unpackExponent_unpackMantissa b).symm⟩

section

variable {s : Sign} {k : BitVec 11} {f : BitVec 52} {m : Nat} {e : Int} {hm : 0 < m}

theorem toNat_packComponents :
    (packComponents .binary64 s k f).toNat =
      (s.toBitVec.toNat * 2 ^ 11 + k.toNat) * 2 ^ 52 + f.toNat := by
  rw [packComponents, BitVec.toNat_append, BitVec.toNat_append,
    ← Nat.shiftLeft_add_eq_or_of_lt k.isLt, ← Nat.shiftLeft_add_eq_or_of_lt f.isLt,
    Nat.shiftLeft_eq, Nat.shiftLeft_eq]

/-- What the fields say: an exponent of ones marks a number that is not finite, one of zeros a
number without a leading one. -/
theorem unpack_packComponents :
    UnpackedFloat.unpack .binary64 (packComponents .binary64 s k f) =
      if k = BitVec.allOnes 11 then if f = 0#52 then .infinity s else .notANumber
      else if k = 0#11 then
        if hf : f = 0#52 then .zero s
        else .finite s f.toNat (-1074) (BitVec.toNat_pos_of_ne_zero hf)
      else .finite s (2 ^ 52 + f.toNat) (k.toNat - 1075) (Nat.add_pos_left (by decide) _) := by
  have hmantissa : (1#1 ++ f).toNat = 2 ^ 52 + f.toNat := by
    rw [BitVec.toNat_append, ← Nat.shiftLeft_add_eq_or_of_lt f.isLt]
    rfl
  have hbias : (Format.binary64.exponentBias : Int) + (52 : Nat) = 1075 := rfl
  unfold UnpackedFloat.unpack
  dsimp only
  simp only [unpackExponent_packComponents, unpackMantissa_packComponents,
    unpackSign_packComponents, Sign.ofBitVec_toBitVec, hmantissa, hbias]
  refine if_congr Iff.rfl rfl ?_
  by_cases hk : k = 0#11
  · rw [hk]
    rfl
  · rw [if_neg hk, if_neg hk]

theorem pack_finite :
    UnpackedFloat.pack .binary64 (.finite s m e hm) =
      if 2046 < (e + 1075).toNat then packedInfinity .binary64 s
      else if m.log2 = 52 then
        packComponents .binary64 s (BitVec.ofNat 11 (e + 1075).toNat) (BitVec.ofNat 52 m)
      else packComponents .binary64 s 0#11 (BitVec.ofNat 52 m) := by
  have hbiased : (e + (Format.binary64.exponentBias : Int) +
      (Format.binary64.mantissaBitsWithoutImplicit : Int)).toNat = (e + 1075).toNat := by
    change (e + 1023 + 52).toNat = _
    omega
  have hbits : Format.binary64.mantissaBits = 53 := rfl
  rw [UnpackedFloat.pack, hbiased, hbits]
  refine if_congr ?_ rfl (if_congr ?_ rfl rfl)
  · change 2048 ≤ _ ↔ _
    omega
  · omega

end

/-! ## Packing and unpacking -/

theorem unpack_packComponents_normal {s : Sign} {k m : Nat} {hm : 0 < m} (hk : k ≠ 0)
    (hk' : k ≤ 2046) (hlow : 2 ^ 52 ≤ m) (hhigh : m < 2 ^ 53) :
    UnpackedFloat.unpack .binary64
        (packComponents .binary64 s (BitVec.ofNat 11 k) (BitVec.ofNat 52 m)) =
      .finite s m (k - 1075) hm := by
  have hbits : (BitVec.ofNat 11 k).toNat = k := Nat.mod_eq_of_lt (by omega)
  have hfraction : 2 ^ 52 + (BitVec.ofNat 52 m).toNat = m := by
    rw [BitVec.toNat_ofNat]
    omega
  have hones : BitVec.ofNat 11 k ≠ BitVec.allOnes 11 := by
    rw [BitVec.toNat_ne, hbits, BitVec.toNat_allOnes]
    omega
  have hsub : BitVec.ofNat 11 k ≠ 0#11 := by
    rw [BitVec.toNat_ne, hbits, BitVec.toNat_zero]
    exact hk
  rw [unpack_packComponents, if_neg hones, if_neg hsub]
  congr

theorem unpack_packComponents_subnormal {s : Sign} {m : Nat} {hm : 0 < m} (hlt : m < 2 ^ 52) :
    UnpackedFloat.unpack .binary64 (packComponents .binary64 s 0#11 (BitVec.ofNat 52 m)) =
      .finite s m (-1074) hm := by
  have hbits : (BitVec.ofNat 52 m).toNat = m := Nat.mod_eq_of_lt hlt
  have hzero : BitVec.ofNat 52 m ≠ 0#52 := by
    rw [BitVec.toNat_ne, hbits]
    exact hm.ne'
  rw [unpack_packComponents, if_neg (by decide), if_pos rfl, dif_neg hzero]
  congr

/-- Packing a form and unpacking the result gives the form back, or an infinity if its exponent does
not fit. -/
theorem unpack_pack {u : UnpackedFloat} (h : Canonical u) :
    UnpackedFloat.unpack .binary64 (UnpackedFloat.pack .binary64 u) = saturate u := by
  cases u with
  | notANumber => rfl
  | infinity s => cases s <;> rfl
  | zero s => cases s <;> rfl
  | finite s m e hm =>
    obtain ⟨hlt, hexp⟩ := h
    rw [pack_finite, saturate]
    by_cases hbig : e ≤ 971
    · rw [if_neg (by omega), if_pos hbig]
      by_cases hnormal : 2 ^ 52 ≤ m
      · obtain ⟨k, hk⟩ : ∃ k : Nat, e + 1075 = k := ⟨(e + 1075).toNat, by omega⟩
        obtain rfl : e = k - 1075 := by omega
        have hlog : m.log2 = 52 := (Nat.log2_eq_iff hm.ne').2 ⟨hnormal, hlt⟩
        rw [if_pos hlog, hk, Int.toNat_natCast]
        exact unpack_packComponents_normal (by omega) (by omega) hnormal hlt
      · obtain rfl : e = -1074 := hexp.resolve_right fun h ↦ hnormal h.2
        have hlog : m.log2 < 52 := (Nat.log2_lt hm.ne').2 (Nat.lt_of_not_le hnormal)
        rw [if_neg hlog.ne]
        exact unpack_packComponents_subnormal (Nat.lt_of_not_le hnormal)
    · rw [if_pos (by omega), if_neg hbig]
      cases s <;> rfl

theorem unpacked_ofUnpacked {u : UnpackedFloat} (h : Canonical u) :
    unpacked (ofUnpacked u) = saturate u := unpack_pack h

theorem ofUnpacked_unpacked (x : Float) : ofUnpacked (unpacked x) = x := by
  obtain ⟨⟨bits, hvalid⟩⟩ := x
  have hbits := pack_unpack_of_valid hvalid
  simp only [ofUnpacked, unpacked, Float.Model.pack, Float.Model.unpack, hbits]

theorem unpacked_injective : Function.Injective unpacked :=
  Function.LeftInverse.injective ofUnpacked_unpacked

theorem canonical_unpacked (x : Float) :
    Canonical (unpacked x) ∧ saturate (unpacked x) = unpacked x := by
  obtain ⟨s, k, f, hb⟩ := exists_packComponents .binary64 x.toModel.toBits.toBitVec
  have hf : f.toNat < 2 ^ 52 := f.isLt
  have hk : k.toNat < 2 ^ 11 := k.isLt
  rw [unpacked, Float.Model.unpack, hb, unpack_packComponents]
  split
  · split
    · exact ⟨trivial, rfl⟩
    · exact ⟨trivial, rfl⟩
  · next hones =>
    split
    · split
      · exact ⟨trivial, rfl⟩
      · exact ⟨⟨by omega, .inl rfl⟩, rfl⟩
    · next hsub =>
      have hone : k.toNat ≠ 2047 := fun h ↦ hones (BitVec.eq_of_toNat_eq h)
      have hzero : k.toNat ≠ 0 := fun h ↦ hsub (BitVec.eq_of_toNat_eq h)
      exact ⟨⟨by omega, .inr ⟨by omega, by omega⟩⟩, if_pos (by omega)⟩

theorem le_of_unpacked_eq {x : Float} {s : Sign} {m : Nat} {e : Int} {hm : 0 < m}
    (h : unpacked x = .finite s m e hm) : e ≤ 971 := by
  have hfits := (canonical_unpacked x).2
  rw [h, saturate] at hfits
  split at hfits
  · assumption
  · cases hfits

end Double

end OrbitPlot
