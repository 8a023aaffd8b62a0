import OrbitPlot.Proofs.CommandLine.Session

/-!
# Points on the canvas

The column of a point is found from its real part and the row from its imaginary part, by the same
test: how far the point is from the first edge, measured in pixels, is neither below zero nor as
much as there are pixels. This asks where a point is not. Not-a-number is neither below zero nor as
much as anything, so it passes, and the word that it becomes is zero: a point that is nowhere has
the first column or the first row of whatever canvas there is, and is marked there.

## Main statements

* `Plane.pixel?_eq`: the pixel of a point, by its column and its row.
* `Plane.column?_of_isNaN`, `Plane.row?_of_isNaN`: where not-a-number is found.
* `Plane.pixel?_of_make`: what the pixel of a point says about the point.
-/

namespace OrbitPlot

namespace Plane

/-! ## Columns and rows -/

/-- The place among so many pixels that lies at some distance from the first edge. -/
def place? (count : UInt64) (distance : Float) : Option UInt64 :=
  if distance < 0 || count.toFloat ≤ distance then none else some distance.toUInt64

/-- The column of the points with some real part. -/
def column? (plane : Plane) (re : Float) : Option UInt64 :=
  place? plane.width ((re - plane.window.left) / plane.stepX)

/-- The row of the points with some imaginary part. -/
def row? (plane : Plane) (im : Float) : Option UInt64 :=
  place? plane.height ((im - plane.window.top) / plane.stepY)

variable {plane : Plane} {z : Point} {x : Float}

theorem pixel?_eq (plane : Plane) (z : Point) :
    plane.pixel? z = (plane.column? z.re).bind fun x ↦ (plane.row? z.im).map fun y ↦ ⟨x, y⟩ := by
  unfold pixel? column? row? place?
  dsimp only
  generalize (z.re - plane.window.left) / plane.stepX = across
  generalize (z.im - plane.window.top) / plane.stepY = down
  rw [Bool.or_assoc]
  by_cases hcolumn : (across < 0 || plane.width.toFloat ≤ across) = true
  · rw [hcolumn, Bool.true_or, if_pos rfl, if_pos rfl, Option.bind_none]
  · rw [if_neg hcolumn, Option.bind_some, Bool.eq_false_iff.2 hcolumn, Bool.false_or]
    by_cases hrow : (down < 0 || plane.height.toFloat ≤ down) = true
    · rw [if_pos hrow, if_pos hrow, Option.map_none]
    · rw [if_neg hrow, if_neg hrow, Option.map_some]

/-! ## Not-a-number -/

/-- Not-a-number passes for a place at the first edge. -/
theorem place?_of_isNaN (h : x.isNaN) (count : UInt64) : place? count x = some 0 := by
  have hlow := Double.not_lt_of_isNaN h 0
  have hhigh := Double.not_le_of_isNaN h count.toFloat
  rw [place?, if_neg (by simp [hlow, hhigh]), Double.toUInt64_of_isNaN h]

theorem column?_of_isNaN (h : x.isNaN) : plane.column? x = some 0 :=
  place?_of_isNaN (Double.isNaN_div (Double.isNaN_sub h _) _) _

theorem row?_of_isNaN (h : x.isNaN) : plane.row? x = some 0 :=
  place?_of_isNaN (Double.isNaN_div (Double.isNaN_sub h _) _) _

theorem pixel?_of_isNaN_re (h : z.re.isNaN) :
    plane.pixel? z = (plane.row? z.im).map fun y ↦ ⟨0, y⟩ := by
  rw [pixel?_eq, column?_of_isNaN h, Option.bind_some]

theorem pixel?_of_isNaN_im (h : z.im.isNaN) :
    plane.pixel? z = (plane.column? z.re).map fun x ↦ ⟨x, 0⟩ := by
  rw [pixel?_eq, row?_of_isNaN h, Option.map_eq_bind]
  rfl

/-- **What the pixel of a point says about the point.** It is a pixel of the plane, whichever point
it is. But the point need not be anywhere: without a real part that is a number it has the first
column, and the row that any point with its imaginary part has; without an imaginary part that is a
number it has the first row, and the column that any point with its real part has. So without
either it falls on the first pixel of every plane, and any image is marked for it there. -/
theorem pixel?_of_make {width height : UInt64} {window : Window}
    (h : Plane.make width height window = .ok plane) (z : Point) :
    (∀ q, plane.pixel? z = some q → q.x.toNat < width.toNat ∧ q.y.toNat < height.toNat) ∧
      (z.re.isNaN → plane.pixel? z = (plane.row? z.im).map fun y ↦ ⟨0, y⟩) ∧
      (z.im.isNaN → plane.pixel? z = (plane.column? z.re).map fun x ↦ ⟨x, 0⟩) ∧
      (z.re.isNaN → z.im.isNaN → plane.pixel? z = some ⟨0, 0⟩ ∧
        ∀ (image : Image) (color : Color),
          image.mark? plane z color = some (image.cross color ⟨0, 0⟩)) := by
  refine ⟨fun q hq ↦ ?_, pixel?_of_isNaN_re, pixel?_of_isNaN_im, fun hre him ↦ ?_⟩
  · obtain ⟨-, hwidth, hheight, rfl⟩ := make_eq_ok_iff.1 h
    have hpos {n : UInt64} (hn : n ≠ 0) : 0 < n.toNat :=
      Nat.pos_of_ne_zero fun hzero ↦ hn (UInt64.toNat_inj.1 hzero)
    exact lt_of_pixel? (hpos hwidth) (hpos hheight) hq
  · have hpixel : plane.pixel? z = some ⟨0, 0⟩ := by
      rw [pixel?_of_isNaN_re hre, row?_of_isNaN him, Option.map_some]
    refine ⟨hpixel, fun image color ↦ ?_⟩
    rw [Image.mark?, hpixel, Option.map_some]

/-- Over the square around zero, with points that lack one part or both. -/
theorem pixel?_of_make_of_square :
    ∃ plane, Plane.make 10 10 ⟨-2, 2, -2, 2⟩ = .ok plane ∧
      (∀ z q, plane.pixel? z = some q → q.x.toNat < 10 ∧ q.y.toNat < 10) ∧
      plane.pixel? ⟨0 / 0, 0⟩ = some ⟨0, 5⟩ ∧ plane.pixel? ⟨0, 0 / 0⟩ = some ⟨5, 0⟩ ∧
      plane.pixel? ⟨0 / 0, 0 / 0⟩ = some ⟨0, 0⟩ := by
  have hnan : Float.isNaN (0 / 0) := by decide +kernel
  have hmake : Plane.make 10 10 ⟨-2, 2, -2, 2⟩ =
      .ok ⟨10, 10, ⟨-2, 2, -2, 2⟩, 0.4, -0.4⟩ := by
    decide +kernel
  refine ⟨_, hmake, fun z ↦ (pixel?_of_make hmake z).1, ?_, ?_, ?_⟩
  · rw [(pixel?_of_make hmake ⟨0 / 0, 0⟩).2.1 hnan]
    decide +kernel
  · rw [(pixel?_of_make hmake ⟨0, 0 / 0⟩).2.2.1 hnan]
    decide +kernel
  · exact ((pixel?_of_make hmake ⟨0 / 0, 0 / 0⟩).2.2.2 hnan hnan).1

/-- A point that is nowhere falls on a pixel, and is marked there. -/
theorem exists_pixel?_of_isNaN :
    ∃ plane z q, Plane.make 10 10 ⟨-2, 2, -2, 2⟩ = .ok plane ∧ z.re.isNaN ∧
      plane.pixel? z = some q ∧
      ((Image.filled 10 10 .black).mark? plane z .pureRed).map (Image.get? · 0 5) =
        some (some .pureRed) := by
  refine ⟨⟨10, 10, ⟨-2, 2, -2, 2⟩, 0.4, -0.4⟩, ⟨0 / 0, 0⟩, ⟨0, 5⟩, ?_, ?_, ?_, ?_⟩
  all_goals decide +kernel

end Plane

end OrbitPlot
