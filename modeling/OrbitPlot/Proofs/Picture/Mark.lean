import OrbitPlot.Picture.Image
import OrbitPlot.Proofs.Float.Word

/-!
# Marks

A mark is painted place by place in four directions, without a look at where the image ends. Columns
and rows are machine words, so a place to the left of the image or above it is one with a very large
number, which no image has. What is painted in the end is the part of a cross that lies on the
image.

## Main statements

* `Image.get?_cross`: what marking a pixel changes.
* `Plane.lt_of_pixel?`: a point falls on a pixel of the plane.
* `Image.get?_mark?`: what marking a point of the plane changes.
* `Image.mark?_of_pixel?`: when a point is marked, and that the mark is the cross and nothing else.
-/

namespace OrbitPlot

/-! ## Crosses -/

/-- A place lies on the cross around a pixel: in the row of the pixel or in its column, and no
farther from it than an arm. -/
def Pixel.Crosses (middle : Pixel) (x y : Nat) : Prop :=
  y = middle.y.toNat ∧ x ≤ middle.x.toNat + Image.arm ∧ middle.x.toNat ≤ x + Image.arm ∨
    x = middle.x.toNat ∧ y ≤ middle.y.toNat + Image.arm ∧ middle.y.toNat ≤ y + Image.arm

instance (middle : Pixel) (x y : Nat) : Decidable (middle.Crosses x y) :=
  inferInstanceAs (Decidable (_ ∨ _))

namespace Image

variable {image : Image} {color : Color} {middle : Pixel} {x y : Nat}

/-- The places that are painted at one distance from the middle of a mark. -/
def spots (middle : Pixel) (distance : Nat) : List (UInt64 × UInt64) :=
  let d := distance.toUInt64
  [(middle.x + d, middle.y), (middle.x - d, middle.y), (middle.x, middle.y + d),
    (middle.x, middle.y - d)]

theorem cross_eq_foldl : image.cross color middle =
    ((List.range (arm + 1)).flatMap (spots middle)).foldl
      (fun image q ↦ image.paint q.1.toNat q.2.toNat color) image := by
  rw [List.foldl_flatMap]
  rfl

theorem get?_foldl_paint (places : List (UInt64 × UInt64)) :
    (places.foldl (fun image q ↦ image.paint q.1.toNat q.2.toNat color) image).get? x y =
      if ∃ place ∈ places, x = place.1.toNat ∧ y = place.2.toNat then
        (image.get? x y).map fun _ ↦ color
      else image.get? x y := by
  induction places generalizing image with
  | nil => simp
  | cons place places ih =>
    rw [List.foldl_cons, ih, get?_paint]
    by_cases hplace : x = place.1.toNat ∧ y = place.2.toNat
    · simp [hplace, Function.comp_def]
    · simp [hplace]

theorem foldl_paint_preserves {P : Image → Prop}
    (hpaint : ∀ image x y, P image → P (image.paint x y color)) (places : List (UInt64 × UInt64))
    (h : P image) :
    P (places.foldl (fun image q ↦ image.paint q.1.toNat q.2.toNat color) image) := by
  induction places generalizing image with
  | nil => exact h
  | cons place places ih => exact ih (hpaint _ _ _ h)

theorem size_cross : (image.cross color middle).width = image.width ∧
    (image.cross color middle).height = image.height := by
  have hpaint (image' : Image) (x y : Nat)
      (h : image'.width = image.width ∧ image'.height = image.height) :
      (image'.paint x y color).width = image.width ∧
        (image'.paint x y color).height = image.height := by
    rwa [width_paint, height_paint]
  rw [cross_eq_foldl]
  exact foldl_paint_preserves hpaint _ ⟨rfl, rfl⟩

/-! ### Words that wrap round -/

theorem toNat_add_distance {a : UInt64} {d : Nat} (h : a.toNat + d < UInt64.size) :
    (a + d.toUInt64).toNat = a.toNat + d := by
  have hd : d.toUInt64.toNat = d := Nat.mod_eq_of_lt (Nat.lt_of_le_of_lt (Nat.le_add_left _ _) h)
  rw [UInt64.toNat_add, hd]
  exact Nat.mod_eq_of_lt h

/-- A word less a small number is no column or row of an image, unless it is what it should be. -/
theorem eq_toNat_sub_distance {a : UInt64} {d k : Nat} (hk : k + d < UInt64.size) :
    k = (a - d.toUInt64).toNat ↔ k + d = a.toNat := by
  have hd : d.toUInt64.toNat = d := Nat.mod_eq_of_lt (Nat.lt_of_le_of_lt (Nat.le_add_left _ _) hk)
  have ha := a.toNat_lt
  rw [UInt64.toNat_sub, hd]
  rw [UInt64.size] at hk
  omega

/-- The places that are painted, as far as they lie on the image, are those of the cross. -/
theorem exists_spot_iff (hx : x + arm < UInt64.size) (hy : y + arm < UInt64.size)
    (hmx : middle.x.toNat + arm < UInt64.size) (hmy : middle.y.toNat + arm < UInt64.size) :
    (∃ place ∈ (List.range (arm + 1)).flatMap (spots middle),
      x = place.1.toNat ∧ y = place.2.toNat) ↔ middle.Crosses x y := by
  have hspots (d : Nat) (hd : d ≤ arm) :
      (∃ place ∈ spots middle d, x = place.1.toNat ∧ y = place.2.toNat) ↔
        (x = middle.x.toNat + d ∨ x + d = middle.x.toNat) ∧ y = middle.y.toNat ∨
          x = middle.x.toNat ∧ (y = middle.y.toNat + d ∨ y + d = middle.y.toNat) := by
    have hsize {k : Nat} (hk : k + arm < UInt64.size) : k + d < UInt64.size :=
      Nat.lt_of_le_of_lt (Nat.add_le_add_left hd k) hk
    simp only [spots, List.exists_mem_cons_iff, List.not_mem_nil, false_and, exists_false, or_false,
      toNat_add_distance (hsize hmx), toNat_add_distance (hsize hmy),
      eq_toNat_sub_distance (hsize hx), eq_toNat_sub_distance (hsize hy)]
    tauto
  constructor
  · rintro ⟨place, hmem, hplace⟩
    obtain ⟨d, hd, hspot⟩ := List.mem_flatMap.1 hmem
    have hle := Nat.le_of_lt_succ (List.mem_range.1 hd)
    have hdirections := (hspots d hle).1 ⟨place, hspot, hplace⟩
    rw [Pixel.Crosses]
    omega
  · intro h
    -- the distance is that along the row or the column, in either direction
    obtain ⟨d, hd, hdirections⟩ : ∃ d ≤ arm,
        (x = middle.x.toNat + d ∨ x + d = middle.x.toNat) ∧ y = middle.y.toNat ∨
          x = middle.x.toNat ∧ (y = middle.y.toNat + d ∨ y + d = middle.y.toNat) := by
      rcases h with ⟨hrow, hright, hleft⟩ | ⟨hcolumn, hdown, hup⟩
      · rcases Nat.le_total x middle.x.toNat with hle | hle
        · exact ⟨middle.x.toNat - x, by omega, .inl ⟨.inr (by omega), hrow⟩⟩
        · exact ⟨x - middle.x.toNat, by omega, .inl ⟨.inl (by omega), hrow⟩⟩
      · rcases Nat.le_total y middle.y.toNat with hle | hle
        · exact ⟨middle.y.toNat - y, by omega, .inr ⟨hcolumn, .inr (by omega)⟩⟩
        · exact ⟨y - middle.y.toNat, by omega, .inr ⟨hcolumn, .inl (by omega)⟩⟩
    obtain ⟨place, hspot, hplace⟩ := (hspots d hd).2 hdirections
    exact ⟨place, List.mem_flatMap.2 ⟨d, List.mem_range.2 (Nat.lt_succ_of_le hd), hspot⟩, hplace⟩

theorem get?_cross (hwidth : image.width + arm ≤ UInt64.size)
    (hheight : image.height + arm ≤ UInt64.size) (hmx : middle.x.toNat + arm < UInt64.size)
    (hmy : middle.y.toNat + arm < UInt64.size) : (image.cross color middle).get? x y =
      if middle.Crosses x y then (image.get? x y).map fun _ ↦ color else image.get? x y := by
  rw [cross_eq_foldl, get?_foldl_paint]
  by_cases hplace : x < image.width ∧ y < image.height
  · have hx := Nat.lt_of_lt_of_le (Nat.add_lt_add_right hplace.1 arm) hwidth
    have hy := Nat.lt_of_lt_of_le (Nat.add_lt_add_right hplace.2 arm) hheight
    exact if_congr (exists_spot_iff hx hy hmx hmy) rfl rfl
  · -- beyond the image there is nothing to paint
    have hnone : image.get? x y = none := if_neg hplace
    rw [hnone, Option.map_none, ite_self, ite_self]

end Image

/-! ## Points of a plane -/

namespace Plane

variable {plane : Plane} {z : Point} {q : Pixel}

theorem eq_of_pixel? (h : plane.pixel? z = some q) : ∃ across down : Float,
    ¬plane.width.toFloat ≤ across ∧ ¬plane.height.toFloat ≤ down ∧
      q = ⟨across.toUInt64, down.toUInt64⟩ := by
  unfold pixel? at h
  dsimp only at h
  split at h
  · cases h
  · next hinside =>
    simp only [Bool.or_eq_true, decide_eq_true_eq, not_or] at hinside
    obtain ⟨⟨⟨-, hright⟩, -⟩, hbelow⟩ := hinside
    exact ⟨_, _, hright, hbelow, (Option.some.inj h).symm⟩

theorem lt_of_pixel? (hwidth : 0 < plane.width.toNat) (hheight : 0 < plane.height.toNat)
    (h : plane.pixel? z = some q) :
    q.x.toNat < plane.width.toNat ∧ q.y.toNat < plane.height.toNat := by
  obtain ⟨across, down, hright, hbelow, rfl⟩ := eq_of_pixel? h
  exact ⟨Double.toUInt64_lt hwidth hright, Double.toUInt64_lt hheight hbelow⟩

/-- However large the plane, there is room for the arms of a mark beyond the pixel of a point. -/
theorem add_arm_lt_of_pixel? (h : plane.pixel? z = some q) :
    q.x.toNat + Image.arm < UInt64.size ∧ q.y.toNat + Image.arm < UInt64.size := by
  obtain ⟨across, down, hright, hbelow, rfl⟩ := eq_of_pixel? h
  have harm : Image.arm < 2 ^ 11 := by decide
  exact ⟨(Nat.add_lt_add_left harm _).trans_le (Double.toUInt64_add_le hright),
    (Nat.add_lt_add_left harm _).trans_le (Double.toUInt64_add_le hbelow)⟩

end Plane

namespace Image

variable {image : Image} {plane : Plane} {z : Point} {color : Color}

theorem size_mark? : ((image.mark? plane z color).getD image).width = image.width ∧
    ((image.mark? plane z color).getD image).height = image.height := by
  rcases h : plane.pixel? z with _ | middle
  · simp [mark?, h]
  · simpa [mark?, h] using size_cross

/-- Marking a point changes the cross around the pixel that it falls on, if it falls on one. -/
theorem get?_mark? (hwidth : image.width + arm ≤ UInt64.size)
    (hheight : image.height + arm ≤ UInt64.size) (x y : Nat) :
    ((image.mark? plane z color).getD image).get? x y =
      if (plane.pixel? z).any fun middle ↦ middle.Crosses x y then
        (image.get? x y).map fun _ ↦ color
      else image.get? x y := by
  rcases h : plane.pixel? z with _ | middle
  · simp [mark?, h]
  · obtain ⟨hx, hy⟩ := Plane.add_arm_lt_of_pixel? h
    rw [mark?, h, Option.map_some, Option.getD_some, get?_cross hwidth hheight hx hy]
    simp

/-- An image after an area of it has been painted: the area has the color as far as it lies on the
image, and everything else is as it was before. -/
structure Painted (area : Nat → Nat → Prop) (color : Color) (before after : Image) : Prop where
  width_eq : after.width = before.width
  height_eq : after.height = before.height
  painted (x y : Nat) : area x y → after.get? x y = (before.get? x y).map fun _ ↦ color
  kept (x y : Nat) : ¬area x y → after.get? x y = before.get? x y

/-- No word goes wrong at some distance from the middle of a mark: the sums do not wrap round, and
where a difference does, it lies beyond the image. -/
structure HasRoom (image : Image) (middle : Pixel) (distance : Nat) : Prop where
  right : (middle.x + distance.toUInt64).toNat = middle.x.toNat + distance
  down : (middle.y + distance.toUInt64).toNat = middle.y.toNat + distance
  left : middle.x.toNat < distance → image.width ≤ (middle.x - distance.toUInt64).toNat
  up : middle.y.toNat < distance → image.height ≤ (middle.y - distance.toUInt64).toNat

theorem le_toNat_sub_distance {a : UInt64} {d n : Nat} (hn : n + d ≤ UInt64.size)
    (h : a.toNat < d) : n ≤ (a - d.toUInt64).toNat := by
  by_contra hlt
  have hsize := Nat.lt_of_lt_of_le (Nat.add_lt_add_right (Nat.lt_of_not_le hlt) d) hn
  have hsum := (eq_toNat_sub_distance hsize).1 rfl
  omega

theorem painted_cross (hwidth : image.width + arm ≤ UInt64.size)
    (hheight : image.height + arm ≤ UInt64.size) {middle : Pixel}
    (hmx : middle.x.toNat + arm < UInt64.size) (hmy : middle.y.toNat + arm < UInt64.size) :
    Painted middle.Crosses color image (image.cross color middle) where
  width_eq := size_cross.1
  height_eq := size_cross.2
  painted x y h := by rw [get?_cross hwidth hheight hmx hmy, if_pos h]
  kept x y h := by rw [get?_cross hwidth hheight hmx hmy, if_neg h]

theorem hasRoom_of_le (hwidth : image.width + arm ≤ UInt64.size)
    (hheight : image.height + arm ≤ UInt64.size) {middle : Pixel}
    (hmx : middle.x.toNat + arm < UInt64.size) (hmy : middle.y.toNat + arm < UInt64.size)
    {d : Nat} (hd : d ≤ arm) : image.HasRoom middle d where
  right := toNat_add_distance (Nat.lt_of_le_of_lt (Nat.add_le_add_left hd _) hmx)
  down := toNat_add_distance (Nat.lt_of_le_of_lt (Nat.add_le_add_left hd _) hmy)
  left := le_toNat_sub_distance ((Nat.add_le_add_left hd _).trans hwidth)
  up := le_toNat_sub_distance ((Nat.add_le_add_left hd _).trans hheight)

/-- **What a mark changes.** A point is marked if and only if it falls on a pixel of the plane, and
then the cross around that pixel is painted, as far as it lies on the image, and nothing else. This
is so for planes of any size, and for images of any size that can be said in 32-bit words, smaller
or larger than the plane. -/
theorem mark?_of_pixel? (image : Image) (plane : Plane) (z : Point) (color : Color)
    (hwidth : image.width < UInt32.size) (hheight : image.height < UInt32.size) :
    match plane.pixel? z with
    | none => image.mark? plane z color = none
    | some middle =>
      (∃ marked, image.mark? plane z color = some marked ∧
        Painted middle.Crosses color image marked) ∧
      ∀ distance ≤ arm, image.HasRoom middle distance := by
  have hroom {n : Nat} (hn : n < UInt32.size) : n + arm ≤ UInt64.size := by
    rw [UInt32.size] at hn
    rw [UInt64.size, arm]
    omega
  rcases h : plane.pixel? z with _ | middle
  · rw [mark?, h]
    rfl
  · obtain ⟨hmx, hmy⟩ := Plane.add_arm_lt_of_pixel? h
    refine ⟨⟨image.cross color middle, ?_, ?_⟩, fun d hd ↦ ?_⟩
    · rw [mark?, h]
      rfl
    · exact painted_cross (hroom hwidth) (hroom hheight) hmx hmy
    · exact hasRoom_of_le (hroom hwidth) (hroom hheight) hmx hmy hd

/-- In a corner, on an image that is smaller than the plane. -/
theorem mark?_of_pixel?_of_corner :
    (2 < UInt32.size ∧ 5 < UInt32.size) ∧
      (∃ marked, (filled 2 5 .black).mark? ⟨4, 4, ⟨-2, 2, -2, 2⟩, 1, -1⟩ ⟨-2, 2⟩ .pureRed =
          some marked ∧
        Painted (Pixel.Crosses ⟨0, 0⟩) .pureRed (filled 2 5 .black) marked) ∧
      ∀ distance ≤ arm, (filled 2 5 .black).HasRoom ⟨0, 0⟩ distance := by
  have hwidth : 2 < UInt32.size := by decide
  have hheight : 5 < UInt32.size := by decide
  have hpixel : Plane.pixel? ⟨4, 4, ⟨-2, 2, -2, 2⟩, 1, -1⟩ ⟨-2, 2⟩ = some ⟨0, 0⟩ := by
    decide +kernel
  have hmark := mark?_of_pixel? (filled 2 5 .black) ⟨4, 4, ⟨-2, 2, -2, 2⟩, 1, -1⟩ ⟨-2, 2⟩ .pureRed
    hwidth hheight
  rw [hpixel] at hmark
  exact ⟨⟨hwidth, hheight⟩, hmark⟩

end Image

end OrbitPlot
