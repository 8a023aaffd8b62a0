import OrbitPlot.Proofs.Program.Step

/-!
# Two runs side by side

Several facts about programs compare two runs of the same code: on other values of the variables, on
higher stacks, or without a memory. What they have in common is stated once. A `Coupling` says
whether values have to be equal, what lies below on the stacks of the second run, how their memories
are related, and which faults of the first run excuse the second from doing the same. Then running
any code keeps the two side by side, provided that variables and complex slots do.

## Main statements

* `Instr.runAll_coupled`: two runs of the same code stay side by side.
* `Pool.slotValue_coupled`: so do two slots, if what is remembered for one is for the other.
-/

namespace OrbitPlot

namespace Machine

/-- How two runs are compared. -/
structure Coupling where
  /-- Whether both runs have to have the same values, and not only equally many. -/
  sameValues : Prop
  /-- The real numbers of the second run below those that the first has too. -/
  reals : List Float
  /-- The points of the second run below those that the first has too. -/
  points : List Point
  /-- How what the two runs remember is related. -/
  known : List (Nat × Point) → List (Nat × Point) → Prop
  /-- The faults of the first run after which the second may do anything. -/
  excused : Fault → Prop
  /-- If anything lies below, the second run can go on where the first finds its stack empty, so
  that has to be excused. -/
  excused_malformed : excused .malformed ∨ reals = [] ∧ points = []

namespace Coupling

variable (c : Coupling) {α β κ : Type}

/-- A stack of the second run holds what the first one does, on top of what lies below. -/
def Stacks (below xs ys : List κ) : Prop :=
  ∃ zs, ys = zs ++ below ∧ xs.length = zs.length ∧ (c.sameValues → xs = zs)

/-- Two machines go together. -/
structure Machines (m n : Machine) : Prop where
  /-- Their stacks of real numbers do. -/
  reals : c.Stacks c.reals m.reals n.reals
  /-- Their stacks of points do. -/
  points : c.Stacks c.points m.points n.points
  /-- What they remember does. -/
  known : c.known m.known n.known

/-- The results of two runs go together: both succeed, or the second fails like the first, unless
the fault of the first excuses it. -/
inductive Results :
    EStateM.Result Fault Machine α → EStateM.Result Fault Machine α → Prop
  /-- Both runs succeed. -/
  | ok {x y : α} {m n : Machine} (hvalues : c.sameValues → x = y) (hmachines : c.Machines m n) :
    Results (.ok x m) (.ok y n)
  /-- Both runs fail for the same reason. -/
  | error (fault : Fault) (m n : Machine) : Results (.error fault m) (.error fault n)
  /-- The first run fails and excuses the second. -/
  | excused {fault : Fault} (h : c.excused fault) (m : Machine)
    (r : EStateM.Result Fault Machine α) : Results (.error fault m) r

/-- On machines that go together, two computations have results that do. -/
def Runs (x y : Run α) : Prop := ∀ ⦃m n⦄, c.Machines m n → c.Results (x m) (y n)

variable {c}

/-! ### Stacks -/

theorem Stacks.append (below xs : List κ) : c.Stacks below xs (xs ++ below) :=
  ⟨xs, rfl, rfl, fun _ ↦ rfl⟩

theorem Stacks.cons {below xs ys : List κ} {x y : κ} (hxy : c.sameValues → x = y)
    (h : c.Stacks below xs ys) : c.Stacks below (x :: xs) (y :: ys) := by
  obtain ⟨zs, rfl, hlength, hzs⟩ := h
  exact ⟨y :: zs, rfl, congrArg (· + 1) hlength, fun hsame ↦ by rw [hxy hsame, hzs hsame]⟩

theorem Stacks.exists_cons {below xs ys : List κ} {x : κ} (h : c.Stacks below (x :: xs) ys) :
    ∃ y ys', ys = y :: ys' ∧ (c.sameValues → x = y) ∧ c.Stacks below xs ys' := by
  obtain ⟨_ | ⟨y, zs⟩, rfl, hlength, hzs⟩ := h
  · cases hlength
  · exact ⟨y, zs ++ below, rfl, fun hsame ↦ (List.cons.inj (hzs hsame)).1, zs, rfl,
      Nat.succ.inj hlength, fun hsame ↦ (List.cons.inj (hzs hsame)).2⟩

theorem Stacks.eq_below {below ys : List κ} (h : c.Stacks below [] ys) : ys = below := by
  obtain ⟨zs, rfl, hlength, -⟩ := h
  rw [List.length_eq_zero_iff.1 hlength.symm, List.nil_append]

theorem Stacks.eq_append {below xs ys : List κ} (h : c.Stacks below xs ys) (hsame : c.sameValues) :
    ys = xs ++ below := by
  obtain ⟨zs, rfl, -, hzs⟩ := h
  rw [hzs hsame]

theorem Stacks.length_eq {xs ys : List κ} (h : c.Stacks [] xs ys) : xs.length = ys.length := by
  obtain ⟨zs, rfl, hlength, -⟩ := h
  rw [hlength, List.append_nil]

/-! ### Results -/

theorem Results.exists_ok {x : α} {m : Machine} {r : EStateM.Result Fault Machine α}
    (h : c.Results (.ok x m) r) :
    ∃ y n, r = .ok y n ∧ (c.sameValues → x = y) ∧ c.Machines m n := by
  cases h with
  | ok hvalues hmachines => exact ⟨_, _, rfl, hvalues, hmachines⟩

theorem Results.exists_error {fault : Fault} {m : Machine} {r : EStateM.Result Fault Machine α}
    (h : c.Results (.error fault m) r) (hfault : ¬c.excused fault) : ∃ n, r = .error fault n := by
  cases h with
  | error fault m n => exact ⟨n, rfl⟩
  | excused hexcused => exact absurd hexcused hfault

/-! ### Steps -/

namespace Runs

theorem pure {x y : α} (h : c.sameValues → x = y) : c.Runs (Pure.pure x : Run α) (Pure.pure y) :=
  fun _ _ hmn ↦ .ok h hmn

theorem bind {x y : Run α} {f g : α → Run β} (hxy : c.Runs x y)
    (hfg : ∀ a b, (c.sameValues → a = b) → c.Runs (f a) (g b)) : c.Runs (x >>= f) (y >>= g) := by
  intro m n hmn
  change c.Results (EStateM.bind x f m) (EStateM.bind y g n)
  unfold EStateM.bind
  have hresults := hxy hmn
  generalize x m = r, y n = s at hresults ⊢
  cases hresults with
  | ok hvalues hmachines => exact hfg _ _ hvalues hmachines
  | error fault m n => exact .error fault m n
  | excused h m r => exact .excused h m _

theorem require {fault : Fault} {x y : Option α} (hnone : x = none → c.excused fault ∨ y = none)
    (hsome : ∀ a, x = some a → ∃ b, y = some b ∧ (c.sameValues → a = b)) :
    c.Runs (Machine.require fault x) (Machine.require fault y) := by
  cases x with
  | some a =>
    obtain ⟨b, rfl, hab⟩ := hsome a rfl
    exact .pure hab
  | none =>
    intro m n hmn
    rcases hnone rfl with hexcused | rfl
    · exact .excused hexcused m _
    · exact .error fault m n

theorem require_self (fault : Fault) (x : Option α) :
    c.Runs (Machine.require fault x) (Machine.require fault x) :=
  .require .inr fun a ha ↦ ⟨a, ha, fun _ ↦ rfl⟩

theorem pushReal {x y : Float} (h : c.sameValues → x = y) :
    c.Runs (Machine.pushReal x) (Machine.pushReal y) :=
  fun _ _ hmn ↦ .ok (fun _ ↦ rfl) ⟨.cons h hmn.reals, hmn.points, hmn.known⟩

theorem pushPoint {z w : Point} (h : c.sameValues → z = w) :
    c.Runs (Machine.pushPoint z) (Machine.pushPoint w) :=
  fun _ _ hmn ↦ .ok (fun _ ↦ rfl) ⟨hmn.reals, .cons h hmn.points, hmn.known⟩

theorem popReal : c.Runs Machine.popReal Machine.popReal := by
  rintro ⟨_ | ⟨x, rs⟩, ps, known⟩ ⟨rs', ps', known'⟩ hmn
  · rcases c.excused_malformed with hexcused | ⟨hbelow, -⟩
    · exact .excused hexcused _ _
    · obtain rfl : rs' = [] := hmn.reals.eq_below.trans hbelow
      exact .error _ _ _
  · obtain ⟨y, rs', rfl, hxy, hrs⟩ := hmn.reals.exists_cons
    exact .ok hxy ⟨hrs, hmn.points, hmn.known⟩

theorem popPoint : c.Runs Machine.popPoint Machine.popPoint := by
  rintro ⟨rs, _ | ⟨z, ps⟩, known⟩ ⟨rs', ps', known'⟩ hmn
  · rcases c.excused_malformed with hexcused | ⟨-, hbelow⟩
    · exact .excused hexcused _ _
    · obtain rfl : ps' = [] := hmn.points.eq_below.trans hbelow
      exact .error _ _ _
  · obtain ⟨w, ps', rfl, hzw, hps⟩ := hmn.points.exists_cons
    exact .ok hzw ⟨hmn.reals, hps, hmn.known⟩

end Runs

end Coupling

end Machine

open Machine

namespace Instr

variable {c : Coupling} {slotValue slotValue' : Nat → Run Point} {pool : Pool} {b b' : Bindings}

/-- In two runs, a variable has values that go together. -/
def LoadsCoupled (c : Coupling) (b b' : Bindings) (v : Variable) : Prop :=
  c.Runs (require (.missing v) (b.lookup v)) (require (.missing v) (b'.lookup v))

theorem loadsCoupled_self (c : Coupling) (b : Bindings) (v : Variable) : LoadsCoupled c b b v :=
  .require_self _ _

theorem run_coupled {i : Instr} (hload : ∀ v, i = load v → LoadsCoupled c b b' v)
    (hslot : ∀ slot, i = complex slot → c.Runs (slotValue slot) (slotValue' slot)) :
    c.Runs (i.run slotValue pool b) (i.run slotValue' pool b') := by
  -- equal operands give equal results, and others need not
  have hop {κ : Type} {x x' y y' : κ} (f : κ → κ → κ) (hx : c.sameValues → x = x')
      (hy : c.sameValues → y = y') (h : c.sameValues) : f x y = f x' y' := by rw [hx h, hy h]
  cases i with
  | load v => exact (hload v rfl).bind fun z w ↦ .pushPoint
  | real slot => exact (Coupling.Runs.require_self _ _).bind fun x y ↦ .pushReal
  | complex slot => exact (hslot slot rfl).bind fun z w ↦ .pushPoint
  | binary op kind =>
    cases kind with
    | real =>
      exact Coupling.Runs.popReal.bind fun y y' hy ↦ Coupling.Runs.popReal.bind fun x x' hx ↦
        .pushReal (hop op.apply hx hy)
    | complex =>
      exact Coupling.Runs.popPoint.bind fun w w' hw ↦ Coupling.Runs.popPoint.bind fun z z' hz ↦
        .pushPoint (hop op.apply hz hw)
  | unary op =>
    cases op with
    | abs =>
      exact Coupling.Runs.popReal.bind fun x x' hx ↦ .pushReal fun h ↦ congrArg Float.abs (hx h)
    | re =>
      exact Coupling.Runs.popPoint.bind fun z z' hz ↦ .pushReal fun h ↦ congrArg Point.re (hz h)
    | im =>
      exact Coupling.Runs.popPoint.bind fun z z' hz ↦ .pushReal fun h ↦ congrArg Point.im (hz h)
  | pair =>
    exact Coupling.Runs.popReal.bind fun y y' hy ↦ Coupling.Runs.popReal.bind fun x x' hx ↦
      .pushPoint fun h ↦ by rw [hx h, hy h]

/-- Two runs of the same code stay side by side if its variables and complex slots do. -/
theorem runAll_coupled {code : List Instr} (hload : ∀ v, load v ∈ code → LoadsCoupled c b b' v)
    (hslot : ∀ slot, complex slot ∈ code → c.Runs (slotValue slot) (slotValue' slot)) :
    c.Runs (runAll slotValue pool b code) (runAll slotValue' pool b' code) := by
  induction code with
  | nil => exact .pure fun _ ↦ rfl
  | cons i code ih =>
    refine (run_coupled (fun v hi ↦ ?_) fun slot hi ↦ ?_).bind fun _ _ _ ↦ ih ?_ ?_
    · exact hload v (hi ▸ List.mem_cons_self)
    · exact hslot slot (hi ▸ List.mem_cons_self)
    · exact fun v hv ↦ hload v (List.mem_cons_of_mem _ hv)
    · exact fun slot hslot' ↦ hslot slot (List.mem_cons_of_mem _ hslot')

end Instr

/-! ## Slots with a memory in both runs -/

/-- Both runs remember the same slots, and go on doing so. -/
structure Machine.Coupling.Remembers (c : Coupling) : Prop where
  /-- A slot is remembered in both runs or in neither. -/
  lookup {known known' : List (Nat × Point)} (h : c.known known known') (slot : Nat) :
    known.lookup slot = none ∧ known'.lookup slot = none ∨
      ∃ z w, known.lookup slot = some z ∧ known'.lookup slot = some w ∧ (c.sameValues → z = w)
  /-- A slot may be remembered in both runs. -/
  cons {known known' : List (Nat × Point)} (h : c.known known known') (slot : Nat) {z w : Point}
    (hzw : c.sameValues → z = w) : c.known ((slot, z) :: known) ((slot, w) :: known')

theorem Pool.slotValue_coupled {c : Coupling} (hc : c.Remembers) (pool : Pool) {b b' : Bindings}
    (hload : ∀ v, Instr.LoadsCoupled c b b' v) (depth slot : Nat) :
    c.Runs (pool.slotValue b depth slot) (pool.slotValue b' depth slot) := by
  induction depth using Nat.strongRecOn generalizing slot with
  | _ depth ih =>
  intro m n hmn
  rcases hc.lookup hmn.known slot with ⟨hm, hn⟩ | ⟨z, w, hm, hn, hzw⟩
  · rcases pool.slot_cases depth slot with ⟨z, hslot⟩ | ⟨program, d, hslot, rfl⟩ | hslot
    · rw [slotValue_fixed hm hslot, slotValue_fixed hn hslot]
      exact .ok (fun _ ↦ rfl) hmn
    · rw [slotValue_varying hm hslot, slotValue_varying hn hslot]
      refine Coupling.Runs.bind (Instr.runAll_coupled (fun v _ ↦ hload v) fun k _ ↦
        ih d (Nat.lt_succ_self d) k) (fun _ _ _ ↦ ?_) hmn
      refine Coupling.Runs.popPoint.bind fun z w hzw ↦ ?_
      refine Coupling.Runs.bind (fun m n hmn ↦ ?_) fun _ _ _ ↦ .pure hzw
      exact .ok (fun _ ↦ rfl) ⟨hmn.reals, hmn.points, hc.cons hmn.known slot hzw⟩
    · rw [slotValue_blocked hm hslot, slotValue_blocked hn hslot]
      exact .error _ _ _
  · rw [slotValue_of_known hm, slotValue_of_known hn]
    exact .ok hzw hmn

end OrbitPlot
