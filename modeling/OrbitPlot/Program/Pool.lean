import OrbitPlot.Formula.Error
import OrbitPlot.Program.Instruction

/-!
# Constant pools

The numbers of a formula are kept in slots, ten for real and ten for complex ones. A number that is
already there is found again instead of taking a second slot; a new one goes into the next slot, so
slots are numbered in the order in which their numbers first appear, and no slot ever changes.

A complex constant is either fixed or, when its parts mention a variable, a program to be run. Such
programs may in turn name slots, and `Program.reads` follows them.
-/

namespace OrbitPlot

/-! ## Slots -/

/-- How many different constants of one kind there may be. -/
def capacity : Nat := 10

/-- Constants of one kind, numbered from zero. -/
structure Slots (α : Type) where
  /-- The constants in the order of their numbers. -/
  items : Array α
  /-- There are only so many slots. -/
  size_le : items.size ≤ capacity

namespace Slots

variable {α : Type}

/-- No constants yet. -/
def empty : Slots α := ⟨#[], Nat.zero_le _⟩

instance : Inhabited (Slots α) := ⟨empty⟩

/-- The number of slots in use. -/
def size (s : Slots α) : Nat := s.items.size

/-- The constant in a slot. -/
def get? (s : Slots α) (slot : Nat) : Option α := s.items[slot]?

/-- The slot of the first constant that agrees with `x`, or else the next slot, which then holds
`x`. There is no answer if `x` is new and no slot is left. -/
def intern (agrees : α → α → Bool) (x : α) (s : Slots α) : Option (Nat × Slots α) :=
  match s.items.findIdx? (agrees · x) with
  | some slot => some (slot, s)
  | none =>
    if h : s.size < capacity then some (s.size, ⟨s.items.push x, Array.size_push x ▸ h⟩)
    else none

@[simp] theorem get?_empty (slot : Nat) : (empty : Slots α).get? slot = none := by
  simp [empty, get?]

theorem get?_of_intern {agrees : α → α → Bool} {x y : α} {s t : Slots α} {slot k : Nat}
    (h : s.intern agrees x = some (slot, t)) (hk : s.get? k = some y) : t.get? k = some y := by
  unfold intern at h
  split at h
  · cases h; exact hk
  · split at h
    · cases h
      have hlt := (Array.getElem?_eq_some_iff.1 hk).1
      simpa [get?, Array.getElem?_push, Nat.ne_of_lt hlt] using hk
    · simp at h

theorem size_of_intern_eq_none {agrees : α → α → Bool} {x : α} {s : Slots α}
    (h : s.intern agrees x = none) : s.size = capacity := by
  unfold intern at h
  split at h
  · simp at h
  · split at h
    · simp at h
    · next hs => exact Nat.le_antisymm s.size_le (Nat.le_of_not_lt hs)

end Slots

/-! ## Constants and pools -/

/-- A complex number of a formula. -/
inductive Constant where
  /-- A number that is the same everywhere. -/
  | fixed (z : Point)
  /-- A number that depends on variables. -/
  | varying (program : Program)
  deriving DecidableEq, Repr

/-- Fixed numbers agree by value and varying ones by their spelling. -/
def Constant.agrees : Constant → Constant → Bool
  | fixed z, fixed w => z.agrees w
  | varying p, varying q => p.source = q.source
  | _, _ => false

/-- The constants of a formula. -/
structure Pool where
  /-- The real numbers. -/
  reals : Slots Float := .empty
  /-- The complex numbers. -/
  complexes : Slots Constant := .empty
  deriving Inhabited

/-- A step that may intern constants. Those it has interned stay even if it fails later. -/
abbrev Interning := EStateM FormulaError Pool

namespace Pool

/-- The slot of a real number. Real numbers are shared if they are equal as numbers. -/
def internReal (x : Float) : Interning Nat := fun pool ↦
  match pool.reals.intern (· == ·) x with
  | some (slot, reals) => .ok slot { pool with reals }
  | none => .error .tooManyReals pool

/-- The slot of a complex number. -/
def internComplex (z : Constant) : Interning Nat := fun pool ↦
  match pool.complexes.intern Constant.agrees z with
  | some (slot, complexes) => .ok slot { pool with complexes }
  | none => .error .tooManyComplexes pool

/-- How deep varying constants can refer to one another, unless one of them needs itself and so
has no value at all: a longer chain would pass some slot twice. -/
def depth (pool : Pool) : Nat := pool.complexes.size

end Pool

/-! ## What a program reads -/

/-- Whether an instruction reads a variable, given which slots do. -/
def Instr.reads (slotReads : Nat → Bool) (v : Variable) : Instr → Bool
  | load w => w = v
  | complex slot => slotReads slot
  | _ => false

/-- Whether the constant in a slot reads a variable, looking through `depth` levels of slots. -/
def Pool.slotReads (pool : Pool) (v : Variable) : (depth slot : Nat) → Bool
  | 0, _ => false
  | depth + 1, slot =>
    match pool.complexes.get? slot with
    | some (.varying program) => program.code.any (Instr.reads (pool.slotReads v depth) v)
    | _ => false

namespace Program

/-- Whether a program reads a variable, itself or through a constant. -/
def reads (pool : Pool) (v : Variable) (program : Program) : Bool :=
  program.code.any (Instr.reads (pool.slotReads v pool.depth) v)

/-- Whether a program reads no variable at all. -/
def isConstant (pool : Pool) (program : Program) : Bool :=
  Variable.all.all fun v ↦ !program.reads pool v

end Program

end OrbitPlot
