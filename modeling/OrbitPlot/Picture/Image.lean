import OrbitPlot.Picture.Plane
import OrbitPlot.Picture.Color

/-!
# Images

A rectangle of colors. Painting outside the rectangle changes nothing, so figures can be drawn
without being clipped first. `get?_paint` says what painting does to every place at once.

A mark is a cross with arms of two pixels, drawn where a point of the plane falls.
-/

namespace OrbitPlot

/-- A picture in colors. -/
structure Image where
  /-- The number of columns. -/
  width : Nat
  /-- The number of rows. -/
  height : Nat
  /-- The colors, row by row from the top. -/
  colors : Array Color
  /-- There is a color for every place. -/
  size_eq : colors.size = width * height

namespace Image

/-- An image of one color. -/
def filled (width height : Nat) (color : Color) : Image :=
  ⟨width, height, Array.replicate (width * height) color, Array.size_replicate⟩

/-- The color at a place. -/
def get? (image : Image) (x y : Nat) : Option Color :=
  if x < image.width ∧ y < image.height then image.colors[y * image.width + x]? else none

/-- Changes the color at a place, if the place is part of the image. -/
def paint (image : Image) (x y : Nat) (color : Color) : Image :=
  if x < image.width then
    { image with
      colors := image.colors.setIfInBounds (y * image.width + x) color
      size_eq := by rw [Array.size_setIfInBounds, image.size_eq] }
  else image

/-- The rows of an image from the top. -/
def rows (image : Image) : List (List Color) :=
  (List.range image.height).map fun y ↦
    (image.colors.extract (y * image.width) ((y + 1) * image.width)).toList

/-! ## What painting changes -/

@[simp] theorem width_paint (image : Image) (x y : Nat) (color : Color) :
    (image.paint x y color).width = image.width := by
  unfold paint; split <;> rfl

@[simp] theorem height_paint (image : Image) (x y : Nat) (color : Color) :
    (image.paint x y color).height = image.height := by
  unfold paint; split <;> rfl

private theorem place_eq_iff {w x y a b : Nat} (hx : x < w) (ha : a < w) :
    y * w + x = b * w + a ↔ x = a ∧ y = b := by
  constructor
  · intro h
    have hmod := congrArg (· % w) h
    have hdiv := congrArg (· / w) h
    have hw : 0 < w := by omega
    simp only [Nat.mul_comm _ w, Nat.mul_add_mod, Nat.mod_eq_of_lt hx, Nat.mod_eq_of_lt ha] at hmod
    simp only [Nat.mul_comm _ w, Nat.mul_add_div hw, Nat.div_eq_of_lt hx,
      Nat.div_eq_of_lt ha, Nat.add_zero] at hdiv
    exact ⟨hmod, hdiv⟩
  · rintro ⟨rfl, rfl⟩; rfl

/-- Painting changes the place it is meant for and no other. -/
theorem get?_paint (image : Image) (x y a b : Nat) (color : Color) :
    (image.paint x y color).get? a b =
      if a = x ∧ b = y then (image.get? a b).map fun _ ↦ color else image.get? a b := by
  by_cases hx : x < image.width
  · by_cases hab : a < image.width ∧ b < image.height
    · have hlt : b * image.width + a < image.colors.size := by
        rw [image.size_eq]
        calc b * image.width + a < b * image.width + image.width := by omega
          _ = (b + 1) * image.width := by rw [Nat.succ_mul]
          _ ≤ image.width * image.height := by
            rw [Nat.mul_comm]; exact Nat.mul_le_mul_left _ hab.2
      simp only [paint, hx, if_true, get?, hab, and_self, Array.getElem?_setIfInBounds,
        place_eq_iff hx hab.1]
      by_cases h : x = a ∧ y = b
      · obtain ⟨rfl, rfl⟩ := h
        simp [hlt]
      · rw [if_neg h, if_neg fun ⟨ha, hb⟩ ↦ h ⟨ha.symm, hb.symm⟩]
    · simp [paint, hx, get?, hab]
  · simp only [paint, hx, if_false]
    split
    · next h =>
      obtain ⟨rfl, rfl⟩ := h
      simp [get?, hx]
    · rfl

/-! ## Marks -/

/-- How many pixels an arm of a mark has beyond its middle. -/
def arm : Nat := 2

/-- Paints the pixels at one distance from the middle of a mark in all four directions. Columns
and rows left of or above the image wrap round to numbers far beyond it. -/
def markAt (color : Color) (middle : Pixel) (image : Image) (distance : Nat) : Image :=
  let d := distance.toUInt64
  [(middle.x + d, middle.y), (middle.x - d, middle.y), (middle.x, middle.y + d),
    (middle.x, middle.y - d)].foldl
    (fun image (x, y) ↦ image.paint x.toNat y.toNat color) image

/-- Marks a pixel with a cross. -/
def cross (color : Color) (middle : Pixel) (image : Image) : Image :=
  (List.range (arm + 1)).foldl (markAt color middle) image

/-- Marks the pixel that a point falls on. There is no answer if it falls on none. -/
def mark? (plane : Plane) (z : Point) (color : Color) (image : Image) : Option Image :=
  (plane.pixel? z).map fun middle ↦ image.cross color middle

end Image

end OrbitPlot
