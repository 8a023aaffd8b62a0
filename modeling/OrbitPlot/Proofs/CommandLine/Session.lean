import OrbitPlot.Main
import OrbitPlot.Proofs.CommandLine.Settings
import OrbitPlot.Proofs.Picture.Mark
import OrbitPlot.Proofs.Picture.Pixmap

/-!
# Sessions from end to end

What accepted arguments lead to. A formula has to be found and has to have a meaning, the picture
needs pixels and the window a shape; if one of these is missing, there is only something to say, and
no file is touched. Otherwise there is a picture of the size that was asked for, and what each of
its pixels shows is known: the mark of the selected point, the color of an orbit, or black.

## Main statements

* `Window.check_eq_ok_iff`, `Plane.make_eq_ok_iff`: which windows can be drawn.
* `Arguments.formulaText_eq_ok_iff`: which formula is drawn.
* `Arguments.Asks.picture_eq_ok_iff`: when there is a picture.
* `Recurrence.get?_drawn`: what a picture shows.
* `ofArguments_of_read`: sessions from end to end.
-/

namespace OrbitPlot

/-! ## Windows that can be drawn -/

/-- A window has a shape: its edges are finite, and opposite ones differ. -/
structure Window.IsProper (w : Window) : Prop where
  finite : w.left.isFinite ∧ w.right.isFinite ∧ w.bottom.isFinite ∧ w.top.isFinite
  hasWidth : ¬w.left == w.right
  hasHeight : ¬w.bottom == w.top

theorem Window.check_eq_ok_iff {w : Window} : w.check = .ok () ↔ w.IsProper := by
  unfold check
  split
  · next hedge =>
    refine ⟨nofun, fun h ↦ ?_⟩
    simp [h.finite] at hedge
  · next hedge =>
    have hfinite : w.left.isFinite ∧ w.right.isFinite ∧ w.bottom.isFinite ∧ w.top.isFinite := by
      simpa [and_assoc] using hedge
    split
    · next hwidth => exact ⟨nofun, fun h ↦ absurd hwidth h.hasWidth⟩
    · next hwidth =>
      split
      · next hheight => exact ⟨nofun, fun h ↦ absurd hheight h.hasHeight⟩
      · next hheight => exact ⟨fun _ ↦ ⟨hfinite, hwidth, hheight⟩, fun _ ↦ rfl⟩

/-- A plane can be laid over a proper window if it has pixels. -/
theorem Plane.make_eq_ok_iff {width height : UInt64} {window : Window} {plane : Plane} :
    Plane.make width height window = .ok plane ↔
      window.IsProper ∧ width ≠ 0 ∧ height ≠ 0 ∧
        plane = ⟨width, height, window, (window.right - window.left) / width.toFloat,
          (window.bottom - window.top) / height.toFloat⟩ := by
  by_cases hpixels : width = 0 ∨ height = 0
  · have hnone : (width = 0 || height = 0) = true := by simpa using hpixels
    constructor
    · intro h
      obtain ⟨_, -, h⟩ := Except.bind_eq_ok_iff.1 h
      rw [if_pos hnone] at h
      cases h
    · rintro ⟨-, hwidth, hheight, -⟩
      exact absurd hpixels (not_or.2 ⟨hwidth, hheight⟩)
  · have hsome : ¬(width = 0 || height = 0) = true := by simpa using hpixels
    constructor
    · intro h
      obtain ⟨_, hcheck, h⟩ := Except.bind_eq_ok_iff.1 h
      rw [if_neg hsome] at h
      cases h
      exact ⟨Window.check_eq_ok_iff.1 hcheck, (not_or.1 hpixels).1, (not_or.1 hpixels).2, rfl⟩
    · rintro ⟨hproper, -, -, rfl⟩
      refine Except.bind_eq_ok_iff.2 ⟨(), Window.check_eq_ok_iff.2 hproper, ?_⟩
      rw [if_neg hsome]
      rfl

/-! ## What a picture shows -/

namespace Recurrence

variable (r : Recurrence) (s : Settings) (plane : Plane)

/-- The orbits of a recurrence on a black plane. -/
def unmarked : Image :=
  (r.render s plane (fun _ ↦ false) (.filled plane.width.toNat plane.height.toNat .black)).1

/-- The picture of a recurrence on a plane, in which the selected point is marked. -/
def drawn : Image :=
  let image := r.unmarked s plane
  match s.selected with
  | some z => (image.mark? plane z .pureRed).getD image
  | none => image

/-- What a pixel shows: red where the mark of the selected point is, else the color of the orbit of
its point, or black if there is none. -/
def shade (x y : Nat) : Color :=
  if (s.selected.bind plane.pixel?).any fun middle ↦ middle.Crosses x y then .pureRed
  else
    let orbit? := (r.orbit s (plane.point ⟨x.toUInt64, y.toUInt64⟩) {}).1
    (orbit?.map fun o ↦ s.rule.color o.last o.steps s.cap).getD .black

theorem size_unmarked :
    (r.unmarked s plane).width = plane.width.toNat ∧
      (r.unmarked s plane).height = plane.height.toNat :=
  size_render _ _

theorem size_drawn :
    (r.drawn s plane).width = plane.width.toNat ∧
      (r.drawn s plane).height = plane.height.toNat := by
  have hsize := r.size_unmarked s plane
  unfold drawn
  rcases s.selected with _ | z
  · exact hsize
  · exact ⟨Image.size_mark?.1.trans hsize.1, Image.size_mark?.2.trans hsize.2⟩

variable {r s plane} {x y : Nat}

theorem get?_unmarked (hx : x < plane.width.toNat) (hy : y < plane.height.toNat) :
    (r.unmarked s plane).get? x y = some ((r.pixelColor s plane x y).getD .black) := by
  have hinside : x < min plane.width.toNat plane.width.toNat ∧
      y < min plane.height.toNat plane.height.toNat := by
    rw [Nat.min_self, Nat.min_self]
    exact ⟨hx, hy⟩
  rw [unmarked, get?_render_of_never_stopped]
  refine (if_pos hinside).trans ?_
  rw [Image.get?_filled hx hy]
  rfl

theorem get?_drawn (hwidth : plane.width.toNat + Image.arm ≤ UInt64.size)
    (hheight : plane.height.toNat + Image.arm ≤ UInt64.size) (hx : x < plane.width.toNat)
    (hy : y < plane.height.toNat) : (r.drawn s plane).get? x y = some (r.shade s plane x y) := by
  have hunmarked := get?_unmarked (r := r) (s := s) hx hy
  unfold drawn shade
  rcases s.selected with _ | z
  · exact hunmarked
  · dsimp only
    obtain ⟨hcolumns, hrows⟩ := r.size_unmarked s plane
    rw [Image.get?_mark? (hcolumns ▸ hwidth) (hrows ▸ hheight), hunmarked, Option.bind_some]
    split
    · rfl
    · rfl

end Recurrence

namespace Arguments

variable {arguments : List Text} {a : Arguments} {formula : Text} {r : Recurrence} {plane : Plane}
  {path : Text} {width height : Nat} {window : Window} {s : Settings} {image : Image}

/-! ## The formula -/

/-- The formula that is drawn: the one given, or else the one with the given name, where the
Mandelbrot set is meant if there is none; and its Julia companion if that is asked for. -/
def formula? (a : Arguments) : Option Text :=
  let named? := Fractal.named? ((a.value? .fractal).getD "Mandelbrot".toList)
  let whole? := (a.value? .formula).or (named?.map fun f ↦ f.formula.toList)
  if a.has .julia then whole?.bind juliaCompanion? else whole?

theorem formulaText_eq_ok_iff : a.formulaText = .ok formula ↔ a.formula? = some formula := by
  have htoOption : a.formulaText.toOption = a.formula? := by
    have hname : Fractal.mandelbrot.name.toList = "Mandelbrot".toList := rfl
    unfold formulaText formula?
    rw [hname]
    dsimp only
    rcases a.value? .formula with _ | whole
    · rcases Fractal.named? ((a.value? .fractal).getD "Mandelbrot".toList) with _ | fractal
      · rcases a.has .julia with _ | _ <;> rfl
      · simp only [pure_bind, Option.map_some, Option.none_or, Option.bind_some]
        rcases a.has .julia with _ | _
        · rfl
        · rcases juliaCompanion? fractal.formula.toList with _ | companion <;> rfl
    · simp only [pure_bind, Option.some_or, Option.bind_some]
      rcases a.has .julia with _ | _
      · rfl
      · rcases juliaCompanion? whole with _ | companion <;> rfl
  rw [← htoOption]
  exact ⟨congrArg Except.toOption, Except.eq_ok_of_toOption_eq_some⟩

/-! ## The window -/

/-- The window between two corners, with its axes turned round as asked. -/
def framed (a : Arguments) (bottomLeft topRight : Point) : Window where
  left := if a.has .invertReal then topRight.re else bottomLeft.re
  right := if a.has .invertReal then bottomLeft.re else topRight.re
  bottom := if a.has .invertImag then topRight.im else bottomLeft.im
  top := if a.has .invertImag then bottomLeft.im else topRight.im

/-- The arguments ask for a picture in some file and of some size, with some window behind it, and
for orbits to be followed in some way. -/
structure Asks (a : Arguments) (path : Text) (width height : Nat) (window : Window)
    (s : Settings) : Prop where
  path : a.value? .output = some path
  size : (a.value? .size).bind Opt.readSize? = some (width, height)
  window : ∃ bottomLeft topRight, (a.value? .leftLower).bind Point.read? = some bottomLeft ∧
    (a.value? .rightUpper).bind Point.read? = some topRight ∧ window = a.framed bottomLeft topRight
  settings : a.Sets s

theorem exists_asks (h : Arguments.read arguments = .ok a) :
    ∃ width height window, a.Asks a.path width height window a.settings := by
  obtain ⟨width, height, hsize⟩ := exists_size h
  obtain ⟨bottomLeft, topRight, hlower, hupper⟩ := exists_corners h
  exact ⟨width, height, a.framed bottomLeft topRight, value?_output h, hsize,
    ⟨bottomLeft, topRight, hlower, hupper, rfl⟩, sets_settings h⟩

theorem Asks.window_eq (h : a.Asks path width height window s) : a.window = .ok window := by
  obtain ⟨bottomLeft, topRight, hlower, hupper, rfl⟩ := h.window
  refine Except.bind_eq_ok_iff.2 ⟨bottomLeft, parsed_eq_ok hlower, ?_⟩
  refine Except.bind_eq_ok_iff.2 ⟨topRight, parsed_eq_ok hupper, ?_⟩
  unfold framed
  rcases a.has .invertReal with _ | _
  · rcases a.has .invertImag with _ | _
    · rfl
    · rfl
  · rcases a.has .invertImag with _ | _
    · rfl
    · rfl

theorem Asks.lt (h : a.Asks path width height window s) :
    width < UInt16.size ∧ height < UInt16.size := by
  obtain ⟨text, -, hsize⟩ := Option.bind_eq_some_iff.1 h.size
  exact lt_of_readSize? hsize

theorem Asks.toNat_toUInt64 (h : a.Asks path width height window s) :
    width.toUInt64.toNat = width ∧ height.toUInt64.toNat = height := by
  have hword {n : Nat} (hn : n < UInt16.size) : n.toUInt64.toNat = n :=
    Nat.mod_eq_of_lt (hn.trans (by decide))
  exact ⟨hword h.lt.1, hword h.lt.2⟩

theorem Asks.size_eq (h : a.Asks path width height window s)
    (hplane : Plane.make width.toUInt64 height.toUInt64 window = .ok plane) :
    plane.width.toNat = width ∧ plane.height.toNat = height := by
  obtain ⟨-, -, -, rfl⟩ := Plane.make_eq_ok_iff.1 hplane
  exact h.toNat_toUInt64

theorem Asks.exists_plane_iff (h : a.Asks path width height window s) :
    (∃ plane, Plane.make width.toUInt64 height.toUInt64 window = .ok plane) ↔
      width ≠ 0 ∧ height ≠ 0 ∧ window.IsProper := by
  obtain ⟨hwidth, hheight⟩ := h.toNat_toUInt64
  have hzero {n : Nat} (hn : n.toUInt64.toNat = n) : n.toUInt64 ≠ 0 ↔ n ≠ 0 := by
    rw [← not_iff_not, not_not, not_not, ← UInt64.toNat_inj, hn]
    rfl
  constructor
  · rintro ⟨plane, hplane⟩
    obtain ⟨hproper, hcolumns, hrows, -⟩ := Plane.make_eq_ok_iff.1 hplane
    exact ⟨(hzero hwidth).1 hcolumns, (hzero hheight).1 hrows, hproper⟩
  · rintro ⟨hcolumns, hrows, hproper⟩
    exact ⟨_, Plane.make_eq_ok_iff.2
      ⟨hproper, (hzero hwidth).2 hcolumns, (hzero hheight).2 hrows, rfl⟩⟩

/-! ## The picture -/

/-- There is a picture if there is a formula that has a meaning, and a plane. -/
theorem Asks.picture_eq_ok_iff (h : a.Asks path width height window s) :
    a.picture = .ok image ↔ ∃ formula r plane,
      a.formula? = some formula ∧ Recurrence.read formula = .ok r ∧
        Plane.make width.toUInt64 height.toUInt64 window = .ok plane ∧
        image = r.drawn a.settings plane := by
  have hdrawn {formula : Text} {r : Recurrence} {plane : Plane}
      (hformula : a.formulaText = .ok formula) (hr : Recurrence.read formula = .ok r)
      (hplane : Plane.make width.toUInt64 height.toUInt64 window = .ok plane) :
      a.picture = .ok (r.drawn a.settings plane) := by
    refine Except.bind_eq_ok_iff.2 ⟨formula, hformula, ?_⟩
    refine Except.bind_eq_ok_iff.2 ⟨r, Except.mapError_eq_ok_iff.2 hr, ?_⟩
    refine Except.bind_eq_ok_iff.2 ⟨_, parsed_eq_ok h.size, ?_⟩
    refine Except.bind_eq_ok_iff.2 ⟨window, h.window_eq, ?_⟩
    refine Except.bind_eq_ok_iff.2 ⟨plane, Except.mapError_eq_ok_iff.2 hplane, ?_⟩
    obtain ⟨hwidth, hheight⟩ := h.size_eq hplane
    rw [Recurrence.drawn, Recurrence.unmarked, hwidth, hheight]
    dsimp only
    rcases a.settings.selected with _ | z
    · rfl
    · rfl
  constructor
  · intro hpicture
    obtain ⟨formula, hformula, hrest⟩ := Except.bind_eq_ok_iff.1 hpicture
    obtain ⟨r, hr, hrest⟩ := Except.bind_eq_ok_iff.1 hrest
    obtain ⟨size, hsize, hrest⟩ := Except.bind_eq_ok_iff.1 hrest
    rw [parsed_eq_ok h.size] at hsize
    cases hsize
    obtain ⟨window', hwindow, hrest⟩ := Except.bind_eq_ok_iff.1 hrest
    rw [h.window_eq] at hwindow
    cases hwindow
    obtain ⟨plane, hplane, -⟩ := Except.bind_eq_ok_iff.1 hrest
    rw [Except.mapError_eq_ok_iff] at hplane hr
    exact ⟨formula, r, plane, formulaText_eq_ok_iff.1 hformula, hr, hplane,
      Except.ok.inj (hpicture.symm.trans (hdrawn hformula hr hplane))⟩
  · rintro ⟨formula, r, plane, hformula, hr, hplane, rfl⟩
    exact hdrawn (formulaText_eq_ok_iff.2 hformula) hr hplane

theorem Asks.shows (h : a.Asks path width height window s)
    (hplane : Plane.make width.toUInt64 height.toUInt64 window = .ok plane) :
    (r.drawn s plane).width = width ∧ (r.drawn s plane).height = height ∧
      ∀ x < width, ∀ y < height, (r.drawn s plane).get? x y = some (r.shade s plane x y) := by
  obtain ⟨hwidth, hheight⟩ := h.size_eq hplane
  have hdrawn := r.size_drawn s plane
  have hroom {n : Nat} (hn : n < UInt16.size) : n + Image.arm ≤ UInt64.size :=
    (Nat.add_lt_add_right hn _).le.trans (by decide)
  refine ⟨hdrawn.1.trans hwidth, hdrawn.2.trans hheight, ?_⟩
  intro x hx y hy
  apply Recurrence.get?_drawn
  · rw [hwidth]
    exact hroom h.lt.1
  · rw [hheight]
    exact hroom h.lt.2
  · rwa [hwidth]
  · rwa [hheight]

/-- The arguments describe a picture of a recurrence: it is what their formula means, there are
pixels, and the window has a shape. -/
structure Describes (a : Arguments) (r : Recurrence) (width height : Nat) (window : Window) :
    Prop where
  formula : ∃ formula, a.formula? = some formula ∧ Recurrence.read formula = .ok r
  plane : width ≠ 0 ∧ height ≠ 0 ∧ window.IsProper

theorem Asks.picture_eq_ok (h : a.Asks path width height window s)
    (hr : a.Describes r width height window) :
    ∃ plane, Plane.make width.toUInt64 height.toUInt64 window = .ok plane ∧
      a.picture = .ok (r.drawn a.settings plane) := by
  obtain ⟨formula, hformula, hread⟩ := hr.formula
  obtain ⟨plane, hplane⟩ := h.exists_plane_iff.2 hr.plane
  exact ⟨plane, hplane, h.picture_eq_ok_iff.2 ⟨formula, r, plane, hformula, hread, hplane, rfl⟩⟩

theorem Asks.picture_eq_error (h : a.Asks path width height window s)
    (hnot : ¬∃ r, a.Describes r width height window) : ∃ failure, a.picture = .error failure := by
  rcases hpicture : a.picture with failure | image
  · exact ⟨failure, rfl⟩
  · obtain ⟨formula, r, plane, hformula, hread, hplane, -⟩ := h.picture_eq_ok_iff.1 hpicture
    exact absurd ⟨r, ⟨formula, hformula, hread⟩, h.exists_plane_iff.1 ⟨plane, hplane⟩⟩ hnot

end Arguments

/-! ## From end to end -/

namespace Session

theorem run_write {path : Text} {image : Image} {w w' : Void IO.RealWorld}
    (h : IO.FS.writeBinFile (String.ofList path) image.toPixmap w = .ok () w') :
    (write path image).run w = .ok {} w' := by
  unfold run
  dsimp only
  apply EIO.bind_of_eq_ok
  · apply EIO.tryCatch_of_eq_ok
    apply EIO.bind_of_eq_ok h
    rfl
  · rfl

end Session

/-- **Sessions from end to end.** Accepted arguments always say which file to write, how large the
picture is, which window is behind it and how orbits are to be followed: up to the number of
iterations that was accepted, by the stopping rule with the accepted name and measures, and with a
point selected if one is given.

If their formula has a meaning, both sizes are nonzero and the window has a shape, there is an image
of just this size to write to the file. At every pixel it shows the color of the mark, of an orbit,
or black; the bytes of the file are a header with the size and then these colors row by row; and if
the file can be written, the session ends with code zero. In every other case there is only
something to say: the session ends with code one, and nothing else is done. -/
theorem ofArguments_of_read {arguments : List Text} {a : Arguments}
    (h : Arguments.read arguments = .ok a) :
    ∃ path width height window s, a.Asks path width height window s ∧
      (∀ r, a.Describes r width height window → ∃ plane image,
        Plane.make width.toUInt64 height.toUInt64 window = .ok plane ∧
        Session.ofArguments arguments = .write path image ∧
        image.width = width ∧ image.height = height ∧
        (∀ x < width, ∀ y < height, image.get? x y = some (r.shade s plane x y)) ∧
        image.toPixmap.data.toList = s!"P6\n{width} {height} 255\n".toUTF8.data.toList ++
          ((List.range height).flatMap fun y ↦
            (List.range width).flatMap fun x ↦ (r.shade s plane x y).bytes) ∧
        ∀ w w', IO.FS.writeBinFile (String.ofList path) image.toPixmap w = .ok () w' →
          ∃ answer, (Session.ofArguments arguments).run w = .ok answer w' ∧ answer.code = 0) ∧
      ((¬∃ r, a.Describes r width height window) → ∃ answer,
        Session.ofArguments arguments = .say answer ∧ answer.code = 1 ∧
        (Session.ofArguments arguments).run = pure answer) := by
  obtain ⟨width, height, window, hasks⟩ := Arguments.exists_asks h
  refine ⟨a.path, width, height, window, a.settings, hasks, fun r hr ↦ ?_, fun hnot ↦ ?_⟩
  · obtain ⟨plane, hplane, hpicture⟩ := hasks.picture_eq_ok hr
    have hsession : Session.ofArguments arguments =
        .write a.path (r.drawn a.settings plane) := by
      simp only [Session.ofArguments, h, hpicture]
    obtain ⟨hwidth, hheight, hshows⟩ := hasks.shows (r := r) hplane
    refine ⟨plane, r.drawn a.settings plane, hplane, hsession, hwidth, hheight, hshows, ?_, ?_⟩
    · have hfile := Image.toList_toPixmap_of_get? (f := r.shade a.settings plane)
        (by rwa [hwidth, hheight])
      rwa [Image.header, hwidth, hheight] at hfile
    · intro w w' hwritten
      exact ⟨{}, by rw [hsession, Session.run_write hwritten], rfl⟩
  · obtain ⟨failure, hpicture⟩ := hasks.picture_eq_error hnot
    have hsession : Session.ofArguments arguments = .say (.ofFailure failure) := by
      simp only [Session.ofArguments, h, hpicture]
    exact ⟨_, hsession, rfl, by rw [hsession]; rfl⟩

/-- The Julia companion of a known fractal in a picture upside down. Of its four pixels three are
marked, and the orbit of the last one ends where it starts. -/
theorem ofArguments_of_read_of_companion : ∃ image,
    Session.ofArguments (["-o", "x", "-n", "mandelbrot", "-j", "-s", "1x4", "--invert-imag",
      "-u", "-2.5,-1.6"].map String.toList) = .write ['x'] image ∧
    image.width = 1 ∧ image.height = 4 ∧
    image.get? 0 2 = some .pureRed ∧ image.get? 0 3 = some .white := by
  let events : List Event := [.option .output, .value .output ['x'], .option .fractal,
    .value .fractal "mandelbrot".toList, .option .julia, .option .size, .value .size "1x4".toList,
    .option .invertImag, .option .point, .value .point "-2.5,-1.6".toList]
  let a : Arguments := ⟨events⟩
  have hevents : (Arguments.read (["-o", "x", "-n", "mandelbrot", "-j", "-s", "1x4",
      "--invert-imag", "-u", "-2.5,-1.6"].map String.toList)).toOption.map Arguments.events =
      some events := by decide +kernel
  obtain ⟨⟨_⟩, hread, rfl⟩ := Option.map_eq_some_iff.1 hevents
  have hread := Except.eq_ok_of_toOption_eq_some hread
  obtain ⟨path, width, height, window, s, hasks, hpicture, -⟩ := ofArguments_of_read hread
  have hpath : a.value? .output = some ['x'] := by decide +kernel
  have hsize : (a.value? .size).bind Opt.readSize? = some (1, 4) := by decide +kernel
  cases hpath.symm.trans hasks.path
  cases hsize.symm.trans hasks.size
  obtain rfl := hasks.settings.unique (Arguments.sets_settings hread)
  have hwindow : window = Window.usual.mirrorImag := by
    have hlower : (a.value? .leftLower).bind Point.read? = some ⟨-2.5, -1.6⟩ := by decide +kernel
    have hupper : (a.value? .rightUpper).bind Point.read? = some ⟨1.5, 1.6⟩ := by decide +kernel
    obtain ⟨bottomLeft, topRight, hlower', hupper', rfl⟩ := hasks.window
    cases hlower.symm.trans hlower'
    cases hupper.symm.trans hupper'
    decide +kernel
  subst hwindow
  have hproper : Window.usual.mirrorImag.IsProper :=
    ⟨by decide +kernel, by decide +kernel, by decide +kernel⟩
  have hformula : a.formula? = some "c;p*p+u".toList := by decide +kernel
  have hok : (Recurrence.read "c;p*p+u".toList).isOk := by decide +kernel
  obtain ⟨r, hr⟩ := Except.exists_eq_ok_of_isOk hok
  obtain ⟨plane, image, hplane, hsession, hwidth, hheight, hshows, -⟩ :=
    hpicture r ⟨⟨_, hformula, hr⟩, by decide, by decide, hproper⟩
  have hshade : (Recurrence.read "c;p*p+u".toList).toOption.bind (fun r ↦
      (Plane.make 1 4 Window.usual.mirrorImag).toOption.map fun plane ↦
        (r.shade a.settings plane 0 2, r.shade a.settings plane 0 3)) = some (.pureRed, .white) := by
    decide +kernel
  have hplane : Plane.make 1 4 Window.usual.mirrorImag = .ok plane := hplane
  rw [hr, hplane] at hshade
  obtain ⟨hmarked, hstopped⟩ := Prod.mk.inj (Option.some.inj hshade)
  refine ⟨image, hsession, hwidth, hheight, ?_, ?_⟩
  · rw [hshows 0 (by decide) 2 (by decide)]
    exact congrArg some hmarked
  · rw [hshows 0 (by decide) 3 (by decide)]
    exact congrArg some hstopped

end OrbitPlot
