import OrbitPlot.Picture.Pixmap
import OrbitPlot.Proofs.Picture.Drawing

/-!
# Files of images

The file of an image is its header, followed by the bytes of its colors row by row from the top. So
if it is known what an image shows at every place, its file is known byte by byte.

## Main statements

* `Image.toList_colors`: the colors of an image in the order in which they are kept.
* `Image.toList_toPixmap`: the bytes of the file of an image.
-/

namespace OrbitPlot

/-- The bytes of a color. -/
def Color.bytes (c : Color) : List UInt8 := [c.red, c.green, c.blue]

namespace Image

theorem toList_colors {image : Image} {f : Nat → Nat → Color}
    (h : ∀ x < image.width, ∀ y < image.height, image.get? x y = some (f x y)) :
    image.colors.toList =
      (List.range image.height).flatMap fun y ↦ (List.range image.width).map fun x ↦ f x y := by
  have hrow (y : Nat) : ((List.range image.width).map fun x ↦ f x y).length = image.width := by
    rw [List.length_map, List.length_range]
  refine List.ext_getElem? fun i ↦ ?_
  by_cases hi : i < image.width * image.height
  · have hw : 0 < image.width := Nat.pos_of_mul_pos_right (Nat.zero_lt_of_lt hi)
    have hx : i % image.width < image.width := Nat.mod_lt i hw
    have hy : i / image.width < image.height := Nat.div_lt_of_lt_mul hi
    have hplace : i / image.width * image.width + i % image.width = i := Nat.div_add_mod' i _
    have hget := h _ hx _ hy
    rw [get?, if_pos ⟨hx, hy⟩, hplace] at hget
    rw [Array.getElem?_toList, hget, ← hplace,
      getElem?_flatMap_of_length hrow (List.getElem?_range hy) hx, List.getElem?_map,
      List.getElem?_range hx, hplace]
    rfl
  · have hsize := image.size_eq
    have hlength : ((List.range image.height).flatMap fun y ↦
        (List.range image.width).map fun x ↦ f x y).length = image.width * image.height := by
      simp [List.length_flatMap, Nat.mul_comm]
    rw [List.getElem?_eq_none (by rw [Array.length_toList]; omega),
      List.getElem?_eq_none (by omega)]

theorem toList_toPixmap (image : Image) :
    image.toPixmap.data.toList =
      image.header.toUTF8.data.toList ++ image.colors.toList.flatMap Color.bytes := by
  have hcolors (colors : List Color) (file : ByteArray) :
      (colors.foldl (fun file c ↦ ((file.push c.red).push c.green).push c.blue) file).data.toList =
        file.data.toList ++ colors.flatMap Color.bytes := by
    induction colors generalizing file with
    | nil => simp
    | cons c colors ih =>
      rw [List.foldl_cons, ih, List.flatMap_cons]
      simp [Color.bytes]
  rw [toPixmap, ← Array.foldl_toList]
  exact hcolors _ _

/-- The file of an image, byte by byte. -/
theorem toList_toPixmap_of_get? {image : Image} {f : Nat → Nat → Color}
    (h : ∀ x < image.width, ∀ y < image.height, image.get? x y = some (f x y)) :
    image.toPixmap.data.toList = image.header.toUTF8.data.toList ++
      (List.range image.height).flatMap fun y ↦
        (List.range image.width).flatMap fun x ↦ (f x y).bytes := by
  rw [toList_toPixmap, toList_colors h, List.flatMap_assoc]
  simp only [List.flatMap_map]

end Image

end OrbitPlot
