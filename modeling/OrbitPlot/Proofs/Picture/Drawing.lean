import OrbitPlot.Picture.Render
import OrbitPlot.Proofs.Recurrence.Counting
import OrbitPlot.Proofs.Recurrence.Start

/-!
# Pictures, pixel by pixel

Drawing goes through the rows of an image, and within a row through its pixels, on one machine.
Since an orbit does not depend on the machine, a pixel is drawn in a color of its own, whatever was
drawn before it; and since painting a place changes no other, what a picture shows can be told place
by place. The list of all orbits goes through the same pixels in another way and has the same
orbits.

Neither comes to an end unless something comes of the sequence of every pixel. With the largest cap
there are pixels of which nothing comes, and then there is no list and no picture.

## Main statements

* `Recurrence.getElem?_orbits`: which orbit the list has for a pixel.
* `Recurrence.get?_render_eq`: what a drawing shows at a place, whenever it was stopped.
* `orbits_eq_and_render_eq`: the list of orbits and the drawing agree.
-/

namespace OrbitPlot

/-! ## The list of pixels -/

theorem getElem?_flatMap_of_length {α β : Type} {f : α → List β} {k : Nat}
    (hlength : ∀ a, (f a).length = k) {xs : List α} {a : α} {j : Nat} (ha : xs[j]? = some a)
    {i : Nat} (hi : i < k) : (xs.flatMap f)[j * k + i]? = (f a)[i]? := by
  induction xs generalizing j with
  | nil => cases ha
  | cons x xs ih =>
    rw [List.flatMap_cons]
    cases j with
    | zero =>
      obtain rfl : x = a := Option.some.inj ha
      rw [Nat.zero_mul, Nat.zero_add, List.getElem?_append_left (by rwa [hlength])]
    | succ j =>
      have hle : (f x).length ≤ (j + 1) * k + i := by
        rw [hlength, Nat.succ_mul, Nat.add_right_comm]
        exact Nat.le_add_left _ _
      rw [List.getElem?_append_right hle, hlength, Nat.succ_mul, Nat.add_right_comm,
        Nat.add_sub_cancel]
      exact ih ha

namespace Plane

variable {plane : Plane}

theorem length_pixels (plane : Plane) :
    plane.pixels.length = plane.width.toNat * plane.height.toNat := by
  rw [pixels, List.length_flatMap]
  simp [Nat.mul_comm]

theorem getElem?_pixels {x y : Nat} (hx : x < plane.width.toNat) (hy : y < plane.height.toNat) :
    plane.pixels[y * plane.width.toNat + x]? = some ⟨x.toUInt64, y.toUInt64⟩ := by
  have hrow : (List.range plane.height.toNat)[y]? = some y := List.getElem?_range hy
  rw [pixels, getElem?_flatMap_of_length (fun row ↦ ?_) hrow hx, List.getElem?_map,
    List.getElem?_range hx]
  · rfl
  · rw [List.length_map, List.length_range]

end Plane

theorem Image.exists_get? (image : Image) {x y : Nat} (hx : x < image.width)
    (hy : y < image.height) : ∃ color, image.get? x y = some color := by
  have hlt : y * image.width + x < image.colors.size := by
    calc y * image.width + x
      _ < y * image.width + image.width := Nat.add_lt_add_left hx _
      _ = (y + 1) * image.width := (Nat.succ_mul _ _).symm
      _ ≤ image.height * image.width := Nat.mul_le_mul_right _ hy
      _ = image.colors.size := by rw [image.size_eq, Nat.mul_comm]
  exact ⟨_, (if_pos ⟨hx, hy⟩).trans (Array.getElem?_eq_getElem hlt)⟩

theorem Image.get?_filled {width height x y : Nat} {color : Color} (hx : x < width)
    (hy : y < height) : (filled width height color).get? x y = some color := by
  obtain ⟨shown, hshown⟩ := (filled width height color).exists_get? hx hy
  have hplace : (Array.replicate (width * height) color)[y * width + x]? = some shown :=
    (if_pos ⟨hx, hy⟩).symm.trans hshown
  obtain ⟨hlt, rfl⟩ := Array.getElem?_eq_some_iff.1 hplace
  rw [hshown, Array.getElem_replicate]

/-! ## The list of orbits -/

namespace Recurrence

variable (r : Recurrence) (s : Settings) (plane : Plane)

/-- In a list of orbits, each is what it is on a machine of its own. -/
theorem orbitsOf_eq_map (points : List Point) (m n : Machine) :
    r.orbitsOf s points m = points.map fun z ↦ (r.orbit s z n).1 := by
  induction points generalizing m with
  | nil => rfl
  | cons z points ih =>
    have hcons : r.orbitsOf s (z :: points) m =
        (r.orbit s z m).1 :: r.orbitsOf s points (r.orbit s z m).2 := rfl
    rw [hcons, List.map_cons, ih, r.orbit_eq s z m n]

theorem length_orbits :
    (r.orbits s plane).length = plane.width.toNat * plane.height.toNat := by
  rw [orbits, orbitsOf_eq_map r s _ {} {}, List.length_map, List.length_map, plane.length_pixels]

theorem getElem?_orbits {x y : Nat} (hx : x < plane.width.toNat) (hy : y < plane.height.toNat)
    (m : Machine) : (r.orbits s plane)[y * plane.width.toNat + x]? =
      some (r.orbit s (plane.point ⟨x.toUInt64, y.toUInt64⟩) m).1 := by
  rw [orbits, orbitsOf_eq_map r s _ {} m, List.getElem?_map, List.getElem?_map,
    Plane.getElem?_pixels hx hy]
  rfl

/-! ## Places of an image -/

/-- The color in which a pixel is drawn, if its point has an orbit. -/
def pixelColor (x y : Nat) : Option Color :=
  (r.color s (plane.point ⟨x.toUInt64, y.toUInt64⟩) {}).1

theorem pixelColor_eq (x y : Nat) :
    r.pixelColor s plane x y = (r.orbit s (plane.point ⟨x.toUInt64, y.toUInt64⟩) {}).1.map
      fun o ↦ s.rule.color o.last o.steps s.cap := rfl

theorem color_eq_pixelColor (x y : Nat) (m : Machine) :
    (r.color s (plane.point ⟨x.toUInt64, y.toUInt64⟩) m).1 = r.pixelColor s plane x y := by
  rw [pixelColor_eq, r.orbit_eq s _ {} m]
  rfl

/-- What a place shows that has been drawn in a color, if there is one to draw it in, and had
another before, if it is part of the image. -/
def overlay (color? old : Option Color) : Option Color := old.map color?.getD

theorem overlay_none (old : Option Color) : overlay none old = old := by
  cases old <;> rfl

theorem overlay_overlay (color? old : Option Color) :
    overlay color? (overlay color? old) = overlay color? old := by
  cases color? <;> cases old <;> rfl

/-- A place that may be drawn by one step and by the next has been drawn if it was by either. -/
theorem overlay_twice {p q : Prop} [Decidable p] [Decidable q] (color? old : Option Color) :
    (if q then overlay color? (if p then overlay color? old else old)
      else if p then overlay color? old else old) = if p ∨ q then overlay color? old else old := by
  by_cases hp : p
  · have hpq : p ∨ q := .inl hp
    rw [if_pos hp, if_pos hpq, overlay_overlay, ite_self]
  · simp only [hp, if_false, false_or]

theorem overlay_map {α : Type} (o? : Option α) (f : α → Color) (old : Color) :
    overlay (o?.map f) (some old) = o?.elim (some old) fun o ↦ some (f o) := by
  cases o? <;> rfl

variable {r s plane} {x y : Nat}

theorem get?_drawPixel (row : Nat) (d : Drawing) (column : Nat) :
    (r.drawPixel s plane row d column).1.get? x y =
      if x = column ∧ y = row then overlay (r.pixelColor s plane x y) (d.1.get? x y)
      else d.1.get? x y := by
  have hcolor : (r.color s (plane.point ⟨column.toUInt64, row.toUInt64⟩) d.2).1 =
      r.pixelColor s plane column row := r.color_eq_pixelColor s plane column row d.2
  unfold drawPixel
  rcases hresult : r.color s (plane.point ⟨column.toUInt64, row.toUInt64⟩) d.2 with
    ⟨_ | color, machine⟩
  · rw [hresult] at hcolor
    by_cases hplace : x = column ∧ y = row
    · obtain ⟨rfl, rfl⟩ := hplace
      rw [if_pos ⟨rfl, rfl⟩, ← hcolor, overlay_none]
    · rw [if_neg hplace]
  · rw [hresult] at hcolor
    by_cases hplace : x = column ∧ y = row
    · obtain ⟨rfl, rfl⟩ := hplace
      rw [Image.get?_paint, if_pos ⟨rfl, rfl⟩, if_pos ⟨rfl, rfl⟩, ← hcolor]
      rfl
    · rw [Image.get?_paint, if_neg hplace, if_neg hplace]

theorem get?_foldl_drawPixel (row : Nat) (columns : List Nat) (d : Drawing) :
    (columns.foldl (r.drawPixel s plane row) d).1.get? x y =
      if x ∈ columns ∧ y = row then overlay (r.pixelColor s plane x y) (d.1.get? x y)
      else d.1.get? x y := by
  induction columns generalizing d with
  | nil => rw [if_neg fun h ↦ List.not_mem_nil h.1, List.foldl_nil]
  | cons column columns ih =>
    rw [List.foldl_cons, ih, get?_drawPixel, overlay_twice]
    simp only [List.mem_cons, or_and_right]

theorem get?_drawRow (width row : Nat) (d : Drawing) :
    (r.drawRow s plane width row d).1.get? x y =
      if x < width ∧ y = row then overlay (r.pixelColor s plane x y) (d.1.get? x y)
      else d.1.get? x y := by
  rw [drawRow, get?_foldl_drawPixel]
  simp only [List.mem_range]

/-- The rows that are drawn are those before the first at which the drawing is stopped. -/
theorem get?_drawRows (stopped : Nat → Bool) (width : Nat) (rows : List Nat) (d : Drawing) :
    (r.drawRows s plane stopped width rows d).1.get? x y =
      if x < width ∧ y ∈ rows.takeWhile (!stopped ·) then
        overlay (r.pixelColor s plane x y) (d.1.get? x y)
      else d.1.get? x y := by
  induction rows generalizing d with
  | nil => rw [List.takeWhile_nil, if_neg fun h ↦ List.not_mem_nil h.2, drawRows]
  | cons row rows ih =>
    by_cases hstop : stopped row
    · rw [drawRows, if_pos hstop, List.takeWhile_cons_of_neg (by simp [hstop]),
        if_neg fun h ↦ List.not_mem_nil h.2]
    · rw [drawRows, if_neg hstop, ih, get?_drawRow, overlay_twice,
        List.takeWhile_cons_of_pos (by simp [hstop])]
      simp only [List.mem_cons, and_or_left]

theorem outcome_drawRows (stopped : Nat → Bool) (width : Nat) (rows : List Nat) (d : Drawing) :
    (r.drawRows s plane stopped width rows d).2 =
      (rows.find? stopped).elim .complete .stopped := by
  induction rows generalizing d with
  | nil => rfl
  | cons row rows ih =>
    by_cases hstop : stopped row
    · rw [drawRows, if_pos hstop, List.find?_cons_of_pos hstop]
      rfl
    · rw [drawRows, if_neg hstop, List.find?_cons_of_neg hstop, ih]

/-! ## The whole image -/

section

variable {P : Image → Prop}
  (hpaint : ∀ image x y color, P image → P (image.paint x y color))
include hpaint

theorem drawPixel_preserves (row column : Nat) {d : Drawing} (hd : P d.1) :
    P (r.drawPixel s plane row d column).1 := by
  unfold drawPixel
  rcases r.color s (plane.point ⟨column.toUInt64, row.toUInt64⟩) d.2 with ⟨_ | color, machine⟩
  · exact hd
  · exact hpaint _ _ _ _ hd

theorem drawRow_preserves (width row : Nat) {d : Drawing} (hd : P d.1) :
    P (r.drawRow s plane width row d).1 := by
  unfold drawRow
  induction List.range width generalizing d with
  | nil => exact hd
  | cons column columns ih => exact ih (drawPixel_preserves hpaint row column hd)

/-- Whatever painting a place preserves, drawing preserves. -/
theorem drawRows_preserves (stopped : Nat → Bool) (width : Nat) (rows : List Nat) {d : Drawing}
    (hd : P d.1) : P (r.drawRows s plane stopped width rows d).1 := by
  induction rows generalizing d with
  | nil => exact hd
  | cons row rows ih =>
    by_cases hstop : stopped row
    · rw [drawRows, if_pos hstop]
      exact hd
    · rw [drawRows, if_neg hstop]
      exact ih (drawRow_preserves hpaint width row hd)

end

theorem size_render (stopped : Nat → Bool) (image : Image) :
    (r.render s plane stopped image).1.width = image.width ∧
      (r.render s plane stopped image).1.height = image.height := by
  have hpaint (image' : Image) (x y : Nat) (color : Color)
      (h : image'.width = image.width ∧ image'.height = image.height) :
      (image'.paint x y color).width = image.width ∧
        (image'.paint x y color).height = image.height := by
    rwa [Image.width_paint, Image.height_paint]
  exact drawRows_preserves hpaint stopped _ _ ⟨rfl, rfl⟩

/-- What an image shows at a place when as much as fits of the rows of a plane has been drawn that
come before the first at which the drawing is stopped. -/
theorem get?_render_eq (stopped : Nat → Bool) (image : Image) (x y : Nat) :
    (r.render s plane stopped image).1.get? x y =
      if x < min plane.width.toNat image.width ∧
          y ∈ (List.range (min plane.height.toNat image.height)).takeWhile (!stopped ·) then
        overlay (r.pixelColor s plane x y) (image.get? x y)
      else image.get? x y :=
  get?_drawRows stopped _ _ _

theorem outcome_render (stopped : Nat → Bool) (image : Image) :
    (r.render s plane stopped image).2 =
      ((List.range (min plane.height.toNat image.height)).find? stopped).elim .complete .stopped :=
  outcome_drawRows stopped _ _ _

theorem get?_render_of_never_stopped (image : Image) (x y : Nat) :
    (r.render s plane (fun _ ↦ false) image).1.get? x y =
      if x < min plane.width.toNat image.width ∧ y < min plane.height.toNat image.height then
        overlay (r.pixelColor s plane x y) (image.get? x y)
      else image.get? x y := by
  have hall : (List.range (min plane.height.toNat image.height)).takeWhile (!(fun _ ↦ false) ·) =
      List.range (min plane.height.toNat image.height) :=
    List.takeWhile_eq_self_iff.2 fun _ _ ↦ rfl
  rw [get?_render_eq, hall]
  simp only [List.mem_range]

theorem render_of_never_stopped (image : Image) :
    (r.render s plane (fun _ ↦ false) image).2 = .complete := by
  rw [outcome_render, List.find?_eq_none.2 fun _ _ ↦ Bool.false_ne_true]
  rfl

theorem render_of_stopped (image : Image) (h : 0 < min plane.height.toNat image.height) :
    r.render s plane (fun _ ↦ true) image = (image, .stopped 0) := by
  obtain ⟨n, hn⟩ := Nat.exists_eq_succ_of_ne_zero (Nat.ne_of_gt h)
  rw [render, hn, List.range_succ_eq_map, drawRows, if_pos rfl]

end Recurrence

/-- **Pictures and lists of orbits agree, pixel by pixel.** Something comes of every sequence, and
only one thing, unless the cap is the largest there is and no term up to it stops the sequence.

If something comes of the sequences of all pixels of a plane, the list of their orbits has one entry
for each pixel, row by row: what comes of its sequence, which is what any machine finds, whatever it
has worked out before. If it does so where the plane and an image overlap, a drawing that is not
stopped is complete: there, a pixel has the color of what comes of its sequence if that is an orbit,
and else the color that it had; all other places of the image stay as they were. A drawing that is
stopped at once leaves the image as it was. -/
theorem orbits_eq_and_render_eq {raw : Text} {r : Recurrence} (h : Recurrence.read raw = .ok r)
    (s : Settings) (plane : Plane) :
    (∀ z, (s.cap.toNat + 1 < UInt64.size ∨ ∃ k ≤ s.cap.toNat, r.StopsAt s z k) →
      ∃ o?, r.Yields s z o?) ∧
    (∀ z o? o?', r.Yields s z o? → r.Yields s z o?' → o? = o?') ∧
    ((∀ x y, x < plane.width.toNat → y < plane.height.toNat →
        ∃ o?, r.Yields s (plane.point ⟨x.toUInt64, y.toUInt64⟩) o?) →
      (r.orbits s plane).length = plane.width.toNat * plane.height.toNat ∧
      ∀ x y, x < plane.width.toNat → y < plane.height.toNat → ∃ o?,
        r.Yields s (plane.point ⟨x.toUInt64, y.toUInt64⟩) o? ∧
        (r.orbits s plane)[y * plane.width.toNat + x]? = some o? ∧
        ∀ m, (r.orbit s (plane.point ⟨x.toUInt64, y.toUInt64⟩) m).1 = o?) ∧
    (∀ image : Image, (∀ x y, x < min plane.width.toNat image.width →
        y < min plane.height.toNat image.height →
        ∃ o?, r.Yields s (plane.point ⟨x.toUInt64, y.toUInt64⟩) o?) →
      ∃ drawn, r.render s plane (fun _ ↦ false) image = (drawn, .complete) ∧
        drawn.width = image.width ∧ drawn.height = image.height ∧
        (∀ x y, x < min plane.width.toNat image.width →
          y < min plane.height.toNat image.height → ∃ o?,
          r.Yields s (plane.point ⟨x.toUInt64, y.toUInt64⟩) o? ∧
          drawn.get? x y =
            o?.elim (image.get? x y) fun o ↦ some (s.rule.color o.last o.steps s.cap)) ∧
        ∀ x y, ¬(x < min plane.width.toNat image.width ∧
          y < min plane.height.toNat image.height) → drawn.get? x y = image.get? x y) ∧
    ∀ image : Image, 0 < min plane.height.toNat image.height →
      r.render s plane (fun _ ↦ true) image = (image, .stopped 0) := by
  have hmade := Recurrence.ofPrograms_of_read h
  refine ⟨fun z ↦ Recurrence.exists_yields hmade, fun z o? o?' ↦ Recurrence.Yields.unique hmade,
    fun hyields ↦ ⟨r.length_orbits s plane, ?_⟩, fun image hyields ↦ ?_,
    fun image ↦ Recurrence.render_of_stopped image⟩
  · intro x y hx hy
    obtain ⟨o?, ho⟩ := hyields x y hx hy
    refine ⟨o?, ho, ?_, Recurrence.orbit_of_yields hmade ho⟩
    rw [r.getElem?_orbits s plane hx hy {}, Recurrence.orbit_of_yields hmade ho]
  · refine ⟨(r.render s plane (fun _ ↦ false) image).1, ?_, ?_, ?_, ?_, ?_⟩
    · rw [← Recurrence.render_of_never_stopped image]
    · exact (Recurrence.size_render _ image).1
    · exact (Recurrence.size_render _ image).2
    · intro x y hx hy
      obtain ⟨o?, ho⟩ := hyields x y hx hy
      refine ⟨o?, ho, ?_⟩
      obtain ⟨old, hold⟩ := image.exists_get?
        (Nat.lt_of_lt_of_le hx (Nat.min_le_right _ _))
        (Nat.lt_of_lt_of_le hy (Nat.min_le_right _ _))
      rw [Recurrence.get?_render_of_never_stopped, if_pos ⟨hx, hy⟩, hold,
        Recurrence.pixelColor_eq, Recurrence.orbit_of_yields hmade ho, Recurrence.overlay_map]
    · intro x y hout
      rw [Recurrence.get?_render_of_never_stopped, if_neg hout]

/-- The image is narrower than the plane and higher. -/
theorem orbits_eq_and_render_eq_of_narrow : ∃ (r : Recurrence) (plane : Plane) (drawn : Image),
    Recurrence.read "c;p*p+c".toList = .ok r ∧ plane.width = 3 ∧ plane.height = 2 ∧
      (r.orbits {} plane)[5]? = some (r.orbit {} (plane.point ⟨2, 1⟩) ⟨[1], [], []⟩).1 ∧
      r.render {} plane (fun _ ↦ false) (.filled 2 4 .black) = (drawn, .complete) ∧
      drawn.get? 1 3 = some .black ∧
      r.render {} plane (fun _ ↦ true) (.filled 2 4 .black) = (.filled 2 4 .black, .stopped 0) := by
  have hok : (Recurrence.read "c;p*p+c".toList).isOk := by decide +kernel
  cases hread : Recurrence.read "c;p*p+c".toList with
  | error e => rw [hread] at hok; cases hok
  | ok r =>
    obtain ⟨hends, -, horbits, hrender, hstopped⟩ :=
      orbits_eq_and_render_eq hread {} ⟨3, 2, .usual, 1, -1⟩
    have hyields (z : Point) : ∃ o?, r.Yields {} z o? := hends z (.inl (by decide))
    obtain ⟨drawn, hdrawn, -, -, -, hrest⟩ := hrender (.filled 2 4 .black) fun _ _ _ _ ↦ hyields _
    obtain ⟨-, hentry⟩ := horbits fun _ _ _ _ ↦ hyields _
    obtain ⟨o?, -, hlisted, horbit⟩ := hentry 2 1 (by decide) (by decide)
    refine ⟨r, ⟨3, 2, .usual, 1, -1⟩, drawn, rfl, rfl, rfl, ?_, hdrawn, ?_, ?_⟩
    · exact hlisted.trans (congrArg some (horbit ⟨[1], [], []⟩).symm)
    · exact (hrest 1 3 (by decide)).trans rfl
    · exact hstopped _ (by decide)

/-- With the largest cap, nothing comes of a plane of a single pixel. -/
theorem exists_pixel_not_yields : ¬∀ raw r, Recurrence.read raw = .ok r →
    ∀ (s : Settings) (width height : UInt64) (window : Window) (plane : Plane),
      Plane.make width height window = .ok plane → ∀ x y, x < width.toNat → y < height.toNat →
        ∃ o?, r.Yields s (plane.point ⟨x.toUInt64, y.toUInt64⟩) o? := by
  intro hall
  obtain ⟨r, hread, hfirst, hrounds⟩ := Recurrence.exists_rounds_of_largest_cap
  have hmake : Plane.make 1 1 ⟨0, 1, -1, 0⟩ = .ok ⟨1, 1, ⟨0, 1, -1, 0⟩, 1, -1⟩ := by decide +kernel
  have hpoint : Plane.point ⟨1, 1, ⟨0, 1, -1, 0⟩, 1, -1⟩ ⟨0, 0⟩ = .zero := by decide +kernel
  obtain ⟨o?, hyields⟩ := hall _ r hread { cap := 18446744073709551615 } 1 1 _ _ hmake 0 0
    (by decide) (by decide)
  have hyields : r.Yields { cap := 18446744073709551615 } .zero o? := hpoint ▸ hyields
  cases hyields with
  | unstarted hfault => cases hfirst.symm.trans hfault
  | @ended first n o hfirst' hn hended hlast =>
    cases hfirst.symm.trans hfirst'
    -- one more round follows
    have hnext := hrounds (n + 1)
    rw [Recurrence.rounds, hended, Option.bind_some, hlast] at hnext
    cases hnext

end OrbitPlot
