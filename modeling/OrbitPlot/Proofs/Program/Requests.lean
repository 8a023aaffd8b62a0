import OrbitPlot.Proofs.Float.Arithmetic
import OrbitPlot.Proofs.Program.Pool

/-!
# Requests for slots

A pool answers one request for a slot after another, for constants of both kinds in any order. Which
constants agree is no equivalence: the two zeros do, and a constant with a part that is not a number
does not even agree with itself, so each request for it takes a slot of its own.

Still no two slots ever hold constants that agree. In the invariant, `Slots.Orderly`, only symmetry
counts: a constant takes a slot when none of those before it agrees with it.

The slots of a pool may also be thought of as rows of ten cells, to be filled by looking for the
first cell that agrees and then for the first one that is empty. These searches find the same slots,
because no cell is ever emptied.

## Main statements

* `Slots.orderly_of_intern`, `Pool.orderly_serve`: one request keeps the slots in order.
* `Slots.intern_eq_none_iff`: when there is no slot.
* `Slots.internCell_cells`: rows of cells are filled in the same way.
* `Pool.serveAll_sound`: what holds after any sequence of requests.
-/

namespace OrbitPlot

/-! ## Which constants agree -/

theorem Point.agrees_comm (z w : Point) : z.agrees w = w.agrees z := by
  rw [agrees, agrees, BEq.comm, BEq.comm (a := z.im)]

theorem Point.agrees_trans {z w v : Point} (h : z.agrees w) (h' : w.agrees v) : z.agrees v := by
  obtain ⟨hre, him⟩ := Bool.and_eq_true_iff.1 h
  obtain ⟨hre', him'⟩ := Bool.and_eq_true_iff.1 h'
  exact Bool.and_eq_true_iff.2 ⟨BEq.trans hre hre', BEq.trans him him'⟩

namespace Constant

theorem agrees_comm (c d : Constant) : c.agrees d = d.agrees c := by
  match c, d with
  | .fixed z, .fixed w => exact z.agrees_comm w
  | .varying p, .varying q => exact decide_eq_decide.2 eq_comm
  | .fixed _, .varying _ => rfl
  | .varying _, .fixed _ => rfl

theorem agrees_trans ⦃c d e : Constant⦄ (h : c.agrees d) (h' : d.agrees e) : c.agrees e := by
  match c, d, e with
  | .fixed _, .fixed _, .fixed _ => exact Point.agrees_trans h h'
  | .varying _, .varying _, .varying _ =>
    exact decide_eq_true ((of_decide_eq_true h).trans (of_decide_eq_true h'))

/-- Whether a part of a fixed constant is not a number. -/
def isNaN : Constant → Bool
  | fixed z => z.re.isNaN || z.im.isNaN
  | varying _ => false

end Constant

theorem beq_self_of_isNaN {x : Float} (h : x.isNaN = false) : x == x := by
  rw [Float.isNaN_eq_decide_eq_nan] at h
  exact Float.beq_self_iff.2 (of_decide_eq_false h)

theorem Constant.agrees_self {c : Constant} (h : c.isNaN = false) : c.agrees c := by
  match c with
  | .fixed z =>
    obtain ⟨hre, him⟩ := Bool.or_eq_false_iff.1 h
    exact Bool.and_eq_true_iff.2 ⟨beq_self_of_isNaN hre, beq_self_of_isNaN him⟩
  | .varying p => exact decide_eq_true rfl

namespace Slots

variable {α : Type} {agrees : α → α → Bool} {isNaN : α → Bool} {x y z : α} {s t : Slots α}
  {slot j k : Nat}

/-! ## Slots in order -/

theorem get?_isSome_iff : (s.get? k).isSome ↔ k < s.size := by
  rw [get?, Option.isSome_iff_exists]
  constructor
  · rintro ⟨y, hy⟩
    exact get?_lt_size hy
  · intro hk
    exact ⟨_, Array.getElem?_eq_getElem hk⟩

/-- The slots in use come first, there are at most ten of them, and no two hold constants that
agree. -/
structure Orderly (agrees : α → α → Bool) (s : Slots α) : Prop where
  /-- Every slot before a slot in use is in use. -/
  first : ∀ ⦃j k⦄, j ≤ k → (s.get? k).isSome → (s.get? j).isSome
  /-- No slot is in use beyond the tenth. -/
  lt_capacity : ∀ ⦃k⦄, (s.get? k).isSome → k < capacity
  /-- Two slots do not hold constants that agree. -/
  apart : ∀ ⦃j k y z⦄, s.get? j = some y → s.get? k = some z → j ≠ k → agrees y z = false

/-- The first two parts of `Orderly` come with the numbering of slots. -/
theorem orderly_of_apart
    (h : ∀ ⦃j k y z⦄, s.get? j = some y → s.get? k = some z → j ≠ k → agrees y z = false) :
    s.Orderly agrees := by
  refine ⟨fun j k hjk hk ↦ ?_, fun k hk ↦ ?_, h⟩
  · exact get?_isSome_iff.2 (hjk.trans_lt (get?_isSome_iff.1 hk))
  · exact (get?_isSome_iff.1 hk).trans_le s.size_le

theorem orderly_empty : (empty : Slots α).Orderly agrees :=
  orderly_of_apart fun j k y z hj ↦ by rw [get?_empty] at hj; cases hj

/-- No slot holds a constant that agrees with `x`. -/
def Lacks (agrees : α → α → Bool) (s : Slots α) (x : α) : Prop :=
  ∀ ⦃k y⦄, s.get? k = some y → agrees y x = false

/-- Every slot is in use, and none holds a constant that agrees with `x`. -/
def Refuses (agrees : α → α → Bool) (s : Slots α) (x : α) : Prop :=
  (∀ k < capacity, (s.get? k).isSome) ∧ s.Lacks agrees x

theorem get?_of_push (h : t.items = s.items.push x) (hk : t.get? k = some y) :
    s.get? k = some y ∨ k = s.size ∧ y = x := by
  rw [get?, h, Array.getElem?_push] at hk
  split at hk
  · next heq => exact .inr ⟨heq, (Option.some.inj hk).symm⟩
  · exact .inl hk

theorem orderly_of_intern (hcomm : ∀ x y, agrees x y = agrees y x) (hs : s.Orderly agrees)
    (h : s.intern agrees x = some (slot, t)) : t.Orderly agrees := by
  obtain ⟨rfl, -⟩ | ⟨-, hlacks, hitems⟩ := intern_cases h
  · exact hs
  · refine orderly_of_apart fun j k y z hj hk hne ↦ ?_
    -- at most one of the two slots is the new one
    obtain hj | ⟨rfl, rfl⟩ := get?_of_push hitems hj
    · obtain hk | ⟨rfl, rfl⟩ := get?_of_push hitems hk
      · exact hs.apart hj hk hne
      · exact hlacks j y hj
    · obtain hk | ⟨rfl, rfl⟩ := get?_of_push hitems hk
      · rw [hcomm]
        exact hlacks k z hk
      · exact absurd rfl hne

/-! ## Answers -/

/-- What it means that `x` is given a slot, which turns the slots `s` into `t`. -/
structure Gives (agrees : α → α → Bool) (isNaN : α → Bool) (x : α) (s : Slots α) (slot : Nat)
    (t : Slots α) : Prop where
  /-- There is a slot for `x`. -/
  not_refuses : ¬s.Refuses agrees x
  /-- The slot holds a constant that agrees with `x`, or `x` itself if this is new and not a
  number. -/
  holds : ∃ y, t.get? slot = some y ∧ (agrees y x ∨ y = x ∧ isNaN x ∧ s.Lacks agrees x)
  /-- A constant that agrees is found again, and nothing changes. -/
  found : ¬s.Lacks agrees x → t = s
  /-- A new constant takes the next slot. -/
  new : s.Lacks agrees x → slot = s.size ∧ t.size = s.size + 1
  /-- No other slot changes. -/
  get?_eq : ∀ k ≠ slot, t.get? k = s.get? k

theorem gives_of_intern (hself : ∀ x, isNaN x = false → agrees x x)
    (h : s.intern agrees x = some (slot, t)) : s.Gives agrees isNaN x slot t := by
  obtain ⟨rfl, y, hy, hagrees⟩ | ⟨rfl, hlacks, hitems⟩ := intern_cases h
  · have hnot : ¬t.Lacks agrees x := fun hlacks ↦ by
      rw [hlacks hy] at hagrees
      cases hagrees
    exact ⟨fun h ↦ hnot h.2, ⟨y, hy, .inl hagrees⟩, fun _ ↦ rfl, fun h ↦ absurd h hnot,
      fun k _ ↦ rfl⟩
  · have hsize : t.size = s.size + 1 := by rw [size, hitems, Array.size_push, size]
    have hle : t.size ≤ capacity := t.size_le
    have hlt : s.size < capacity := by omega
    have hget : t.get? s.size = some x := by rw [get?, hitems, size, Array.getElem?_push_size]
    refine ⟨fun h ↦ ?_, ⟨x, hget, ?_⟩, fun h ↦ absurd hlacks h, fun _ ↦ ⟨rfl, hsize⟩,
      fun k hk ↦ ?_⟩
    · exact absurd (get?_isSome_iff.1 (h.1 _ hlt)) (Nat.lt_irrefl _)
    · by_cases hnan : isNaN x
      · exact .inr ⟨rfl, hnan, hlacks⟩
      · exact .inl (hself x (Bool.eq_false_iff.2 hnan))
    · rw [get?, hitems, Array.getElem?_push]
      exact if_neg hk

theorem intern_eq_none_iff : s.intern agrees x = none ↔ s.Refuses agrees x := by
  constructor
  · intro h
    refine ⟨fun k hk ↦ get?_isSome_iff.2 (size_of_intern_eq_none h ▸ hk), fun k y hy ↦ ?_⟩
    have hnone : s.items.findIdx? (agrees · x) = none := by
      unfold intern at h
      split at h
      · cases h
      · next hfind => exact hfind
    exact Array.findIdx?_eq_none_iff.1 hnone y (Array.mem_of_getElem? hy)
  · intro h
    by_contra hsome
    obtain ⟨⟨slot, t⟩, hintern⟩ := Option.ne_none_iff_exists'.1 hsome
    -- which constants are not numbers does not matter here
    have hgives : s.Gives agrees (fun _ ↦ true) x slot t := gives_of_intern nofun hintern
    exact hgives.not_refuses h

/-! ## Rows of cells -/

/-- The slots as a row of cells. Those that are not in use are empty. -/
def cells (s : Slots α) : List (Option α) := (List.range capacity).map s.get?

/-- Interning in a row of cells: the first cell that agrees, or else the first empty one. -/
def internCell (agrees : α → α → Bool) (x : α) (row : List (Option α)) :
    Option (Nat × List (Option α)) :=
  match row.findIdx? fun cell ↦ cell.any (agrees · x) with
  | some slot => some (slot, row)
  | none => (row.findIdx? Option.isNone).map fun slot ↦ (slot, row.set slot (some x))

theorem getElem?_cells (hk : k < capacity) : s.cells[k]? = some (s.get? k) := by
  rw [cells, List.getElem?_map, List.getElem?_range hk, Option.map_some]

theorem cells_eq (s : Slots α) :
    s.cells = s.items.toList.map some ++ List.replicate (capacity - s.size) none := by
  have hlength : s.items.toList.length = s.size := rfl
  have hle := s.size_le
  refine List.ext_getElem? fun k ↦ ?_
  by_cases hk : k < capacity
  · rw [getElem?_cells hk]
    by_cases hlt : k < s.size
    · rw [List.getElem?_append_left (by rwa [List.length_map]), List.getElem?_map,
        Array.getElem?_toList, get?, Array.getElem?_eq_getElem hlt, Option.map_some]
    · rw [List.getElem?_append_right (by rw [List.length_map]; omega), List.length_map, hlength,
        List.getElem?_replicate_of_lt (by omega), get?,
        Array.getElem?_eq_none (Nat.le_of_not_lt hlt)]
  · rw [List.getElem?_eq_none, List.getElem?_eq_none]
    · rw [List.length_append, List.length_map, List.length_replicate, hlength]
      change s.size ≤ capacity at hle
      omega
    · rw [cells, List.length_map, List.length_range]
      exact Nat.le_of_not_lt hk

theorem findIdx?_agrees_cells :
    s.cells.findIdx? (fun cell ↦ cell.any (agrees · x)) = s.items.findIdx? (agrees · x) := by
  have hempty : (List.replicate (capacity - s.size) (none : Option α)).findIdx?
      (fun cell ↦ cell.any (agrees · x)) = none :=
    List.findIdx?_eq_none_iff.2 fun cell hcell ↦ by
      rw [List.eq_of_mem_replicate hcell]
      rfl
  rw [cells_eq, List.findIdx?_append, hempty, Option.map_none, Option.or_none, List.findIdx?_map,
    ← List.findIdx?_toArray]
  rfl

theorem findIdx?_isNone_cells :
    s.cells.findIdx? Option.isNone = if s.size < capacity then some s.size else none := by
  have hused : (s.items.toList.map some).findIdx? Option.isNone = none :=
    List.findIdx?_eq_none_iff.2 fun cell hcell ↦ by
      obtain ⟨y, -, rfl⟩ := List.mem_map.1 hcell
      rfl
  rw [cells_eq, List.findIdx?_append, hused, Option.none_or, List.length_map,
    List.findIdx?_replicate]
  by_cases h : s.size < capacity
  · rw [if_pos h, if_pos ⟨by omega, rfl⟩, Option.map_some, Nat.zero_add]
    rfl
  · rw [if_neg h, if_neg (fun h' ↦ h (by omega)), Option.map_none]

theorem cells_of_push (hlt : s.size < capacity) (h : t.items = s.items.push x) :
    t.cells = s.cells.set s.size (some x) := by
  have hlength : (s.items.toList.map some).length = s.size := List.length_map ..
  have hrest : capacity - s.size = capacity - t.size + 1 := by
    rw [size, size, h, Array.size_push]
    change s.items.size < capacity at hlt
    omega
  rw [cells_eq, cells_eq, List.set_append_right _ _ hlength.le, hlength, Nat.sub_self, hrest,
    List.replicate_succ, List.set_cons_zero, h, Array.toList_push, List.map_append,
    List.append_assoc]
  rfl

theorem internCell_cells (agrees : α → α → Bool) (x : α) (s : Slots α) :
    internCell agrees x s.cells = (s.intern agrees x).map fun (slot, t) ↦ (slot, t.cells) := by
  rw [internCell, findIdx?_agrees_cells, findIdx?_isNone_cells, intern]
  cases hfind : s.items.findIdx? (agrees · x) with
  | some slot => rfl
  | none =>
    by_cases h : s.size < capacity
    · rw [if_pos h]
      simp only [dif_pos h, Option.map_some]
      rw [cells_of_push (t := ⟨s.items.push x, Array.size_push x ▸ h⟩) h rfl]
    · rw [if_neg h]
      simp only [dif_neg h, Option.map_none]

end Slots

/-! ## Requests -/

/-- A request for the slot of a constant. -/
inductive Request where
  /-- The slot of a real number is asked for. -/
  | real (x : Float)
  /-- The slot of a complex number is asked for. -/
  | complex (c : Constant)

namespace Request

/-- What a pool answers. -/
def answer : Request → Interning Nat
  | real x => Pool.internReal x
  | complex c => Pool.internComplex c

/-- What the answer to a request says of the pool before it and after it. An error says that there
is no slot, and leaves the pool as it is. -/
def Answered (p : Pool) : Request → EStateM.Result FormulaError Pool Nat → Prop
  | real x, .ok slot q =>
    p.reals.Gives (· == ·) Float.isNaN x slot q.reals ∧ q.complexes = p.complexes
  | real x, .error e q => p.reals.Refuses (· == ·) x ∧ e = .tooManyReals ∧ q = p
  | complex c, .ok slot q =>
    p.complexes.Gives Constant.agrees Constant.isNaN c slot q.complexes ∧ q.reals = p.reals
  | complex c, .error e q =>
    p.complexes.Refuses Constant.agrees c ∧ e = .tooManyComplexes ∧ q = p

end Request

/-- Two rows of ten cells, which are empty at first. -/
structure Cells where
  /-- The cells for real numbers. -/
  reals : List (Option Float) := List.replicate capacity none
  /-- The cells for complex numbers. -/
  complexes : List (Option Constant) := List.replicate capacity none

namespace Cells

/-- What rows of cells answer. -/
def answer (cells : Cells) : Request → EStateM.Result FormulaError Cells Nat
  | .real x =>
    match Slots.internCell (· == ·) x cells.reals with
    | some (slot, reals) => .ok slot { cells with reals }
    | none => .error .tooManyReals cells
  | .complex c =>
    match Slots.internCell Constant.agrees c cells.complexes with
    | some (slot, complexes) => .ok slot { cells with complexes }
    | none => .error .tooManyComplexes cells

/-- The cells after a request, answered with a slot or with an error. -/
def serve (cells : Cells) (request : Request) : Cells :=
  match cells.answer request with
  | .ok _ cells => cells
  | .error _ cells => cells

end Cells

namespace Pool

variable {p q : Pool}

/-- The pool after a request, answered with a slot or with an error. -/
def serve (p : Pool) (request : Request) : Pool :=
  match request.answer p with
  | .ok _ q => q
  | .error _ q => q

/-- The pool after a sequence of requests, of which any may have failed. -/
def serveAll (requests : List Request) : Pool := requests.foldl serve {}

/-- The pool as two rows of cells. -/
def cells (p : Pool) : Cells where
  reals := p.reals.cells
  complexes := p.complexes.cells

/-- The slots of both kinds are in order. -/
structure Orderly (p : Pool) : Prop where
  /-- Real numbers agree if they are equal as numbers. -/
  reals : p.reals.Orderly (· == ·)
  /-- Complex numbers agree by value or by spelling. -/
  complexes : p.complexes.Orderly Constant.agrees

theorem orderly_empty : Orderly {} := ⟨Slots.orderly_empty, Slots.orderly_empty⟩

/-- **One answer.** A slot is given out unless there is none. -/
theorem answered (p : Pool) (request : Request) :
    Request.Answered p request (request.answer p) := by
  match request with
  | .real x =>
    rw [Request.answer, internReal]
    cases hintern : p.reals.intern (· == ·) x with
    | some given => exact ⟨Slots.gives_of_intern (fun _ ↦ beq_self_of_isNaN) hintern, rfl⟩
    | none => exact ⟨Slots.intern_eq_none_iff.1 hintern, rfl, rfl⟩
  | .complex c =>
    rw [Request.answer, internComplex]
    cases hintern : p.complexes.intern Constant.agrees c with
    | some given => exact ⟨Slots.gives_of_intern (fun _ ↦ Constant.agrees_self) hintern, rfl⟩
    | none => exact ⟨Slots.intern_eq_none_iff.1 hintern, rfl, rfl⟩

theorem orderly_serve (h : p.Orderly) (request : Request) : (p.serve request).Orderly := by
  match request with
  | .real x =>
    rw [serve, Request.answer, internReal]
    cases hintern : p.reals.intern (· == ·) x with
    | some given =>
      exact ⟨Slots.orderly_of_intern (fun _ _ ↦ BEq.comm) h.reals hintern, h.complexes⟩
    | none => exact h
  | .complex c =>
    rw [serve, Request.answer, internComplex]
    cases hintern : p.complexes.intern Constant.agrees c with
    | some given =>
      exact ⟨h.reals, Slots.orderly_of_intern Constant.agrees_comm h.complexes hintern⟩
    | none => exact h

theorem cells_serve (p : Pool) (request : Request) :
    (p.serve request).cells = p.cells.serve request := by
  match request with
  | .real x =>
    have hrow : p.cells.reals = p.reals.cells := rfl
    rw [serve, Request.answer, internReal, Cells.serve, Cells.answer, hrow,
      Slots.internCell_cells]
    cases p.reals.intern (· == ·) x <;> rfl
  | .complex c =>
    have hrow : p.cells.complexes = p.complexes.cells := rfl
    rw [serve, Request.answer, internComplex, Cells.serve, Cells.answer, hrow,
      Slots.internCell_cells]
    cases p.complexes.intern Constant.agrees c <;> rfl

theorem orderly_serveAll (requests : List Request) : (serveAll requests).Orderly := by
  induction requests using List.reverseRecOn with
  | nil => exact orderly_empty
  | append_singleton requests request ih =>
    rw [serveAll, List.foldl_append]
    exact orderly_serve ih request

theorem cells_serveAll (requests : List Request) :
    (serveAll requests).cells = requests.foldl Cells.serve {} :=
  (List.foldl_hom Pool.cells fun p request ↦ (cells_serve p request).symm).symm.trans rfl

/-- **Any sequence of requests.** The slots in use come first and hold constants of which no two
agree; they are the cells that a search for the first empty cell fills. The next request is given a
slot that holds its constant, or is refused because every slot is in use and none agrees. -/
theorem serveAll_sound (requests : List Request) :
    (serveAll requests).Orderly ∧
      (serveAll requests).cells = requests.foldl Cells.serve {} ∧
      ∀ request : Request,
        Request.Answered (serveAll requests) request (request.answer (serveAll requests)) :=
  ⟨orderly_serveAll requests, cells_serveAll requests, answered _⟩

/-- The zeros share a slot, and not-a-number takes a slot each time it is asked for. -/
example : (serveAll [.real (0 / 0), .real 0, .real (-0), .real (0 / 0)]).reals.size = 3 := by
  decide +kernel

end Pool

end OrbitPlot
