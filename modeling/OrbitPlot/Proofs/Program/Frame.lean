import OrbitPlot.Proofs.Program.Coupling

/-!
# What lies below on the stacks

A computation that succeeds does the same on top of any further values, and leaves those alone. So
a computation that succeeds from empty stacks never takes a value that it has not put there itself,
wherever it is run. This compares a run with the same run on higher stacks, which are coupled as
long as the first does not fail.
-/

namespace OrbitPlot

namespace Machine

/-- The machine with further values below those on its stacks. -/
def above (m : Machine) (reals : List Float) (points : List Point) : Machine :=
  { m with reals := m.reals ++ reals, points := m.points ++ points }

/-- If a computation succeeds, it does the same on top of any further values. -/
def Framed {α : Type} (x : Run α) : Prop :=
  ∀ ⦃m a m'⦄, x m = .ok a m' → ∀ reals points,
    x (m.above reals points) = .ok a (m'.above reals points)

/-- A run beside the same run on top of further values. If the first fails, the second may do
anything. -/
def Coupling.frame (reals : List Float) (points : List Point) : Coupling where
  sameValues := True
  reals := reals
  points := points
  known := Eq
  excused _ := True
  excused_malformed := .inl trivial

namespace Coupling

variable {reals : List Float} {points : List Point}

theorem machines_above (m : Machine) : (frame reals points).Machines m (m.above reals points) :=
  ⟨.append _ _, .append _ _, rfl⟩

theorem Machines.eq_above {m n : Machine} (h : (frame reals points).Machines m n) :
    n = m.above reals points := by
  obtain ⟨rs, ps, known⟩ := n
  obtain rfl : rs = m.reals ++ reals := h.reals.eq_append trivial
  obtain rfl : ps = m.points ++ points := h.points.eq_append trivial
  obtain rfl : m.known = known := h.known
  rfl

theorem remembers_frame : (frame reals points).Remembers where
  lookup {known known'} h slot := by
    obtain rfl : known = known' := h
    cases hlookup : known.lookup slot with
    | none => exact .inl ⟨rfl, rfl⟩
    | some z => exact .inr ⟨z, z, rfl, rfl, fun _ ↦ rfl⟩
  cons {known known'} h slot {z w} hzw := by
    obtain rfl : known = known' := h
    obtain rfl : z = w := hzw trivial
    rfl

end Coupling

theorem framed_iff {α : Type} {x : Run α} :
    Framed x ↔ ∀ reals points, (Coupling.frame reals points).Runs x x := by
  constructor
  · intro h reals points m n hmn
    rw [hmn.eq_above]
    cases hx : x m with
    | ok a m' =>
      rw [h hx reals points]
      exact .ok (fun _ ↦ rfl) (Coupling.machines_above m')
    | error fault m' => exact .excused trivial m' _
  · intro h m a m' hx reals points
    have hresults := h reals points (Coupling.machines_above m)
    rw [hx] at hresults
    obtain ⟨a', n, hn, ha, hmachines⟩ := hresults.exists_ok
    cases ha trivial
    rw [hn, hmachines.eq_above]

end Machine

open Machine

/-- Code that succeeds does the same on top of any further values if its complex slots do. -/
theorem Instr.framed_runAll {slotValue : Nat → Run Point} (pool : Pool) (b : Bindings)
    (hslot : ∀ slot, Framed (slotValue slot)) (code : List Instr) :
    Framed (runAll slotValue pool b code) :=
  framed_iff.2 fun reals points ↦ runAll_coupled (fun v _ ↦ loadsCoupled_self _ b v) fun slot _ ↦
    framed_iff.1 (hslot slot) reals points

theorem Pool.framed_slotValue (pool : Pool) (b : Bindings) (depth slot : Nat) :
    Framed (pool.slotValue b depth slot) :=
  framed_iff.2 fun _ _ ↦ pool.slotValue_coupled Coupling.remembers_frame
    (Instr.loadsCoupled_self _ b) depth slot

end OrbitPlot
