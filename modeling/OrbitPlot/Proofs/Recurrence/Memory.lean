import OrbitPlot.Proofs.Recurrence.Correctness
import OrbitPlot.Proofs.Recurrence.Trial

/-!
# Remembering does not show

Within one evaluation a varying constant is worked out once and remembered. Here it is shown that
working it out anew each time would give the same: the same value, or the same fault. All that is
needed is that every program in the pool has passed its test. Such a program leaves the stacks of
its caller alone, so it does not matter that it is not run again, and its value does not depend on
where it is run.

## Main statement

`evaluate_eq_evaluateAnew`: evaluating with a memory and without gives the same.
-/

namespace OrbitPlot

open Machine

/-! ## Working constants out anew -/

/-- The value of a complex slot, whose program is run each time. -/
def Pool.slotAnew (pool : Pool) (b : Bindings) : (depth slot : Nat) → Run Point
  | depth, slot =>
    match depth, pool.complexes.get? slot with
    | _, some (.fixed z) => pure z
    | depth + 1, some (.varying program) => do
      Instr.runAll (pool.slotAnew b depth) pool b program.code
      popPoint
    | _, _ => throw .malformed

/-- The value of a program that is run from empty stacks and without a memory. -/
def Program.evaluateAnew (pool : Pool) (b : Bindings) (depth : Nat) (program : Program) :
    Run Point := do
  reset
  Instr.runAll (pool.slotAnew b depth) pool b program.code
  popPoint

/-- What comes of a computation, apart from the machine. -/
def Machine.outcome {α : Type} : EStateM.Result Fault Machine α → Except Fault α
  | .ok a _ => .ok a
  | .error fault _ => .error fault

theorem Machine.outcome_eq_ok_iff {α : Type} {r : EStateM.Result Fault Machine α} {a : α} :
    outcome r = .ok a ↔ ∃ m, r = .ok a m := by
  cases r with
  | ok b m => exact ⟨fun h ↦ ⟨m, by rw [Except.ok.inj h]⟩, fun ⟨_, h⟩ ↦ by cases h; rfl⟩
  | error fault m => exact ⟨nofun, nofun⟩

theorem Machine.outcome_eq_error_iff {α : Type} {r : EStateM.Result Fault Machine α}
    {fault : Fault} : outcome r = .error fault ↔ ∃ m, r = .error fault m := by
  cases r with
  | ok a m => exact ⟨nofun, nofun⟩
  | error fault' m => exact ⟨fun h ↦ ⟨m, by rw [Except.error.inj h]⟩, fun ⟨_, h⟩ ↦ by cases h; rfl⟩

/-- Every program in the pool has passed its test. -/
def Pool.AllFit (pool : Pool) : Prop :=
  ∀ slot program, pool.complexes.get? slot = some (.varying program) → program.fits pool

namespace Pool

variable {pool : Pool} {b : Bindings} {depth depth' slot : Nat}

theorem slotAnew_fixed {z : Point} (hslot : pool.complexes.get? slot = some (.fixed z)) :
    pool.slotAnew b depth slot = pure z := by
  unfold slotAnew
  simp only [hslot]

theorem slotAnew_varying {program : Program}
    (hslot : pool.complexes.get? slot = some (.varying program)) :
    pool.slotAnew b (depth + 1) slot = (do
      Instr.runAll (pool.slotAnew b depth) pool b program.code
      popPoint) := by
  rw [slotAnew.eq_def]
  simp only [hslot]

theorem slotAnew_blocked (hslot : pool.Blocked depth slot) :
    pool.slotAnew b depth slot = throw .malformed := by
  unfold slotAnew
  split
  · next z hz => cases (hslot _ hz).2.choose_spec
  · next d program hz => cases (hslot _ hz).1
  · rfl

theorem slotAnew_eq_of_ends (h : pool.Ends depth slot) (h' : pool.Ends depth' slot) :
    pool.slotAnew b depth slot = pool.slotAnew b depth' slot := by
  induction depth using Nat.strongRecOn generalizing depth' slot with
  | _ depth ih =>
  rcases pool.slot_cases depth slot with ⟨z, hslot⟩ | ⟨program, d, hslot, rfl⟩ | hslot
  · rw [slotAnew_fixed hslot, slotAnew_fixed hslot]
  · obtain ⟨d', rfl, hcode'⟩ := h'.exists_eq_succ hslot
    have hcode : ∀ k, .complex k ∈ program.code →
        pool.slotAnew b d k = pool.slotAnew b d' k := fun k hk ↦
      ih d (Nat.lt_succ_self d) (h k ⟨program, hslot, hk⟩) (hcode' k hk)
    rw [slotAnew_varying hslot, slotAnew_varying hslot,
      Instr.runAll_congr pool (fun _ _ ↦ rfl) hcode]
  · rw [slotAnew_blocked hslot, slotAnew_blocked (h.blocked hslot)]

end Pool

/-! ## On top of other values -/

theorem Pool.slotAnew_coupled (pool : Pool) (c : Coupling) (b : Bindings) (depth slot : Nat) :
    c.Runs (pool.slotAnew b depth slot) (pool.slotAnew b depth slot) := by
  induction depth using Nat.strongRecOn generalizing slot with
  | _ depth ih =>
  rcases pool.slot_cases depth slot with ⟨z, hslot⟩ | ⟨program, d, hslot, rfl⟩ | hslot
  · rw [slotAnew_fixed hslot]
    exact .pure fun _ ↦ rfl
  · rw [slotAnew_varying hslot]
    exact (Instr.runAll_coupled (fun v _ ↦ Instr.loadsCoupled_self _ b v)
      fun k _ ↦ ih d (Nat.lt_succ_self d) k).bind fun _ _ _ ↦ .popPoint
  · rw [slotAnew_blocked hslot]
    exact fun m n _ ↦ .error _ m n

namespace Machine

/-- A run beside the same run on top of further values, whatever either machine remembers. If the
first lacks the value of a variable, the second lacks it too. -/
def Coupling.anew (reals : List Float) (points : List Point) : Coupling where
  sameValues := True
  reals := reals
  points := points
  known _ _ := True
  excused fault := fault = .malformed
  excused_malformed := .inl rfl

/-- A computation yields a point and leaves the stacks as they are, wherever it is run. -/
def Settles (x : Run Point) (z : Point) : Prop := ∀ m, ∃ known, x m = .ok z { m with known }

theorem Settles.eq {x : Run Point} {z w : Point} (h : Settles x z) {m n : Machine}
    (hw : x m = .ok w n) : w = z := by
  obtain ⟨known, hz⟩ := h m
  cases hw.symm.trans hz
  rfl

section

variable {x : Run Point} (hx : ∀ reals points, (Coupling.anew reals points).Runs x x)
include hx

theorem results_anew (m : Machine) :
    (Coupling.anew m.reals m.points).Results (x {}) (x m) :=
  hx m.reals m.points ⟨.append _ _, .append _ _, trivial⟩

theorem settles_of_empty {z : Point} {known : List (Nat × Point)}
    (h : x {} = .ok z ⟨[], [], known⟩) : Settles x z := by
  intro m
  have hresults := results_anew hx m
  rw [h] at hresults
  obtain ⟨w, ⟨rs, ps, known'⟩, hm, hw, hmachines⟩ := hresults.exists_ok
  obtain rfl : rs = m.reals := hmachines.reals.eq_append trivial
  obtain rfl : ps = m.points := hmachines.points.eq_append trivial
  cases hw trivial
  exact ⟨known', hm⟩

theorem ne_ok_of_empty {v : Variable} {m₀ : Machine} (h : x {} = .error (.missing v) m₀)
    (m : Machine) {z : Point} {n : Machine} : x m ≠ .ok z n := by
  intro hm
  have hresults := results_anew hx m
  rw [h] at hresults
  obtain ⟨n', hfault⟩ := hresults.exists_error nofun
  cases hm.symm.trans hfault

end

end Machine

/-! ## With a memory and without -/

/-- A run with a memory beside one without. -/
def Machine.Coupling.memory (recalls : List (Nat × Point) → Prop) : Coupling where
  sameValues := True
  reals := []
  points := []
  known known _ := recalls known
  excused _ := False
  excused_malformed := .inr ⟨rfl, rfl⟩

namespace Pool

variable {pool : Pool} {b : Bindings} {depth slot : Nat} {program : Program}

/-- Every point that is remembered is what its slot would yield anew, wherever it is run. -/
def Recalls (pool : Pool) (b : Bindings) (known : List (Nat × Point)) : Prop :=
  ∀ ⦃slot z⦄, known.lookup slot = some z → ∀ ⦃depth⦄, pool.Ends depth slot →
    Settles (pool.slotAnew b depth slot) z

theorem recalls_nil : pool.Recalls b [] := nofun

theorem Recalls.cons {known : List (Nat × Point)} (h : pool.Recalls b known)
    (hends : pool.Ends depth slot) {z : Point} (hz : Settles (pool.slotAnew b depth slot) z) :
    pool.Recalls b ((slot, z) :: known) := by
  intro k w hk depth' hends'
  rw [List.lookup_cons] at hk
  by_cases hslot : k = slot
  · subst hslot
    rw [beq_self_eq_true] at hk
    cases hk
    rwa [slotAnew_eq_of_ends hends' hends]
  · rw [beq_false_of_ne hslot] at hk
    exact h hk hends'

/-- If a program has passed its test, its slot yields the same point wherever it yields one. -/
theorem settles_of_slotAnew (hpool : pool.Acyclic) (hfits : program.fits pool)
    (hslot : pool.complexes.get? slot = some (.varying program))
    (hends : pool.Ends (depth + 1) slot)
    (hcode : ∀ k, .complex k ∈ program.code →
      (Coupling.memory (pool.Recalls b)).Runs (pool.slotValue b depth k) (pool.slotAnew b depth k))
    {m n : Machine} {z : Point} (h : pool.slotAnew b (depth + 1) slot m = .ok z n) :
    Settles (pool.slotAnew b (depth + 1) slot) z := by
  have hanew := fun reals points ↦
    pool.slotAnew_coupled (.anew reals points) b (depth + 1) slot
  have hsame : program.run pool b =
      Instr.runAll (pool.slotValue b depth) pool b program.code :=
    Instr.runAll_congr pool (fun _ _ ↦ rfl) fun k hk ↦
      slotValue_eq_of_ends (hpool.ends k) (hends k ⟨program, hslot, hk⟩)
  have hresults : (Coupling.memory (pool.Recalls b)).Results (program.run pool b {})
      (Instr.runAll (pool.slotAnew b depth) pool b program.code {}) := by
    rw [hsame]
    exact Instr.runAll_coupled (fun v _ ↦ Instr.loadsCoupled_self _ b v) hcode
      ⟨.append [] [], .append [] [], recalls_nil⟩
  rw [slotAnew_varying hslot] at hanew h ⊢
  -- the test tells what the program does from empty stacks, and the rest is the frame
  rcases Program.run_of_fits hfits b with ⟨w, known, hrun⟩ | ⟨v, m', -, hrun⟩
  · rw [hrun] at hresults
    obtain ⟨_, ⟨rs, ps, known'⟩, hempty, -, hmachines⟩ := hresults.exists_ok
    obtain rfl : rs = [] := hmachines.reals.eq_append trivial
    obtain rfl : ps = [w] := hmachines.points.eq_append trivial
    have hsettles := settles_of_empty hanew (EStateM.bind_of_eq_ok hempty)
    rwa [hsettles.eq h]
  · rw [hrun] at hresults
    obtain ⟨n', hempty⟩ := hresults.exists_error id
    exact absurd h (ne_ok_of_empty hanew (EStateM.bind_of_eq_error hempty) m)

theorem runs_remember (hends : pool.Ends depth slot)
    (hsettles : ∀ {m z n}, pool.slotAnew b depth slot m = .ok z n →
      Settles (pool.slotAnew b depth slot) z)
    {x : Run Point}
    (hx : (Coupling.memory (pool.Recalls b)).Runs x (pool.slotAnew b depth slot)) :
    (Coupling.memory (pool.Recalls b)).Runs (do let z ← x; remember slot z; return z)
      (pool.slotAnew b depth slot) := by
  intro m n hmn
  have hresults := hx hmn
  cases hm : x m with
  | error fault m' =>
    rw [hm] at hresults
    obtain ⟨n', hn⟩ := hresults.exists_error id
    rw [EStateM.bind_of_eq_error hm, hn]
    exact .error _ _ _
  | ok z m' =>
    rw [hm] at hresults
    obtain ⟨w, n', hn, hzw, hmachines⟩ := hresults.exists_ok
    cases hzw trivial
    rw [EStateM.bind_of_eq_ok hm, hn]
    exact .ok (fun _ ↦ rfl)
      ⟨hmachines.reals, hmachines.points, Recalls.cons hmachines.known hends (hsettles hn)⟩

theorem slotValue_memory (hpool : pool.Acyclic) (hfit : pool.AllFit) (h : pool.Ends depth slot) :
    (Coupling.memory (pool.Recalls b)).Runs (pool.slotValue b depth slot)
      (pool.slotAnew b depth slot) := by
  induction depth using Nat.strongRecOn generalizing slot with
  | _ depth ih =>
  intro m n hmn
  have hrecalls : pool.Recalls b m.known := hmn.known
  cases hknown : m.known.lookup slot with
  | some z =>
    obtain ⟨known, hn⟩ := hrecalls hknown h n
    rw [slotValue_of_known hknown, hn]
    exact .ok (fun _ ↦ rfl) ⟨hmn.reals, hmn.points, hrecalls⟩
  | none =>
    rcases pool.slot_cases depth slot with ⟨z, hslot⟩ | ⟨program, d, hslot, rfl⟩ | hslot
    · rw [slotValue_fixed hknown hslot, slotAnew_fixed hslot]
      exact .ok (fun _ ↦ rfl) hmn
    · have hcode : ∀ k, .complex k ∈ program.code →
          (Coupling.memory (pool.Recalls b)).Runs (pool.slotValue b d k) (pool.slotAnew b d k) :=
        fun k hk ↦ ih d (Nat.lt_succ_self d) (h k ⟨program, hslot, hk⟩)
      have hrun : (Coupling.memory (pool.Recalls b)).Runs
          (do Instr.runAll (pool.slotValue b d) pool b program.code; popPoint)
          (pool.slotAnew b (d + 1) slot) := by
        rw [slotAnew_varying hslot]
        exact (Instr.runAll_coupled (fun v _ ↦ Instr.loadsCoupled_self _ b v) hcode).bind
          fun _ _ _ ↦ .popPoint
      -- only now is the point remembered, and it is the one that the slot yields anew
      have hremember := runs_remember h
        (settles_of_slotAnew hpool (hfit slot program hslot) hslot h hcode) hrun
      rw [bind_assoc] at hremember
      rw [slotValue_varying hknown hslot]
      exact hremember hmn
    · rw [slotValue_blocked hknown hslot, slotAnew_blocked hslot]
      exact .error _ _ _

end Pool

/-! ## Evaluations -/

theorem Machine.outcome_eq_of_memory {α : Type} {recalls : List (Nat × Point) → Prop}
    {x y : EStateM.Result Fault Machine α} (h : (Coupling.memory recalls).Results x y) :
    outcome x = outcome y := by
  cases h with
  | ok hvalues => rw [outcome, outcome, hvalues trivial]
  | error fault => rfl
  | excused hexcused => cases hexcused

theorem Pool.Sound.acyclic {pool : Pool} (h : pool.Sound) : pool.Acyclic := by
  refine acyclic_of_lt fun slot k ⟨program, hslot, hk⟩ ↦ ?_
  obtain ⟨x, y, rfl, hx, hy, -, -⟩ := h hslot
  exact absurd hk (Program.not_mem_bracket_code hx hy k)

theorem Pool.Sound.allFit {pool : Pool} (h : pool.Sound) : pool.AllFit := by
  intro slot program hslot
  obtain ⟨z, known, hrun⟩ := (h.disciplined Bindings.isSome_lookup_zero hslot).leaves []
  exact Program.fits_iff_leavesPoint_zero.2 ⟨z, known, hrun [] []⟩

theorem Recurrence.sound_of_read {raw : Text} {r : Recurrence} (h : read raw = .ok r) :
    r.pool.Sound := by
  obtain ⟨e₁, e₂, hready₁, -, -⟩ := ready_of_read h
  exact hready₁.sound

/-- Where every program in the pool has passed its test, evaluating a program comes to the same with
a memory and without. -/
theorem Program.outcome_evaluate {pool : Pool} (hpool : pool.Acyclic) (hfit : pool.AllFit)
    (program : Program) (b : Bindings) (m n : Machine) {depth : Nat} (hdepth : pool.depth ≤ depth) :
    outcome (program.evaluate pool b m) = outcome (program.evaluateAnew pool b depth n) := by
  have hslot (slot : Nat) : (Coupling.memory (pool.Recalls b)).Runs
      (pool.slotValue b pool.depth slot) (pool.slotAnew b depth slot) := by
    rw [← Pool.slotAnew_eq_of_ends (hpool.ends slot) ((hpool.ends slot).mono hdepth)]
    exact Pool.slotValue_memory hpool hfit (hpool.ends slot)
  have hrun : (Coupling.memory (pool.Recalls b)).Runs
      (do program.run pool b; popPoint)
      (do Instr.runAll (pool.slotAnew b depth) pool b program.code; popPoint) :=
    (Instr.runAll_coupled (fun v _ ↦ Instr.loadsCoupled_self _ b v) fun slot _ ↦ hslot slot).bind
      fun _ _ _ ↦ .popPoint
  -- both machines are cleared first, so what they held does not matter
  exact outcome_eq_of_memory (@hrun {} {} ⟨.append [] [], .append [] [], Pool.recalls_nil⟩)

/-- **Remembering does not show.** If no constant of a pool needs itself and every program in it has
passed its test, then evaluating any program, on any values of the variables and whatever the
machine did before, comes to what it would come to if every constant were worked out anew wherever
it is named, be it a value or a fault. The pool of a formula is always of this sort. -/
theorem evaluate_eq_evaluateAnew :
    (∀ pool : Pool, pool.Acyclic → pool.AllFit → ∀ (program : Program) (b : Bindings)
      (m n : Machine) (depth : Nat), pool.depth ≤ depth →
        outcome (program.evaluate pool b m) = outcome (program.evaluateAnew pool b depth n)) ∧
    ∀ raw r, Recurrence.read raw = .ok r → r.pool.Acyclic ∧ r.pool.AllFit := by
  refine ⟨fun pool hpool hfit program b m n depth hdepth ↦ ?_, fun raw r h ↦ ?_⟩
  · exact program.outcome_evaluate hpool hfit b m n hdepth
  · have hsound := Recurrence.sound_of_read h
    exact ⟨hsound.acyclic, hsound.allFit⟩

theorem Pool.allFit_nested : nested.AllFit := by
  intro slot program hslot
  rcases slot with _ | _ | slot
  · cases hslot
    decide +kernel
  · cases hslot
    decide +kernel
  · cases hslot

/-- A constant is named by another and by the program, on a machine that remembers something else
for it from before. -/
theorem evaluate_eq_evaluateAnew_of_nested :
    outcome ((Program.mk [] [.complex 1, .complex 0, .binary .add .complex]).evaluate .nested
        (.atStart ⟨1, 2⟩ none) ⟨[1], [], [(0, ⟨5, 5⟩)]⟩) =
      outcome ((Program.mk [] [.complex 1, .complex 0, .binary .add .complex]).evaluateAnew .nested
        (.atStart ⟨1, 2⟩ none) 2 {}) ∧
      ∃ r, Recurrence.read "c;[rc,ip]*p".toList = .ok r ∧ r.pool.AllFit := by
  refine ⟨evaluate_eq_evaluateAnew.1 .nested Pool.acyclic_nested Pool.allFit_nested _ _ _ {} 2
    (by decide), ?_⟩
  have hok : (Recurrence.read "c;[rc,ip]*p".toList).isOk := by decide +kernel
  cases hread : Recurrence.read "c;[rc,ip]*p".toList with
  | error e => rw [hread] at hok; cases hok
  | ok r => exact ⟨r, rfl, (evaluate_eq_evaluateAnew.2 _ r hread).2⟩

end OrbitPlot
