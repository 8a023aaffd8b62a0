import Mathlib.Order.Bounds.Defs
import OrbitPlot.Proofs.Recurrence.Mentions
import OrbitPlot.Proofs.Recurrence.Variables
import OrbitPlot.Recurrence.Orbit

/-!
# Sequences and their orbits

The sequence of a point is defined here without a machine, term by term: the first program gives its
first term, and the other program each later one from the first term and the term before. An orbit
is then found to be what it is meant to be, the beginning of this sequence up to the first term that
is stopped.

## Main statements

* `Orbit.follow_firstStop`: what following a sequence comes to.
* `Recurrence.outcome_firstTerm`: a first term that was worked out in advance is the right one.
* `orbit_of_read`: the orbit of a point for the recurrence of a formula.
-/

namespace OrbitPlot

open Machine

/-! ## Following a sequence -/

/-- An orbit ends at the first of the terms from one number to another at which the sequence is
stopped, or at the last of them if it is stopped at none before. -/
structure Orbit.FirstStop (stops : Point → Bool) (x : Nat → Point) (start limit : Nat)
    (o : Orbit) : Prop where
  /-- The orbit ends no earlier than it begins. -/
  start_le : start ≤ o.steps.toNat
  /-- It ends at the limit, if not before. -/
  le_limit : o.steps.toNat ≤ limit
  /-- It ends with the term that as many steps lead to as were taken. -/
  last_eq : o.last = x o.steps.toNat
  /-- The sequence was not stopped before. -/
  not_stops : ∀ n, start ≤ n → n < o.steps.toNat → stops (x n) = false
  /-- Before the limit, the sequence is stopped where the orbit ends. -/
  stops_last : o.steps.toNat < limit → stops (x o.steps.toNat)

/-- A sequence is followed to the first term at which it is stopped, but no further than allowed. -/
theorem Orbit.follow_firstStop (stops : Point → Bool) {next : Point → Run Point} {x : Nat → Point}
    (hnext : ∀ n m, ∃ m', next (x n) m = .ok (x (n + 1)) m') (left : Nat) (steps : UInt64)
    (hlimit : steps.toNat + left < UInt64.size) (m : Machine) :
    ∃ o m', follow stops next left steps (x steps.toNat) m = .ok o m' ∧
      o.FirstStop stops x steps.toNat (steps.toNat + left) := by
  induction left generalizing steps m with
  | zero =>
    refine ⟨⟨steps, x steps.toNat⟩, m, rfl, Nat.le_refl _, Nat.le_refl _, rfl, ?_, ?_⟩
    · exact fun n hle hlt ↦ absurd hle (Nat.not_le_of_lt hlt)
    · exact fun hlt ↦ absurd hlt (Nat.lt_irrefl _)
  | succ left ih =>
    by_cases hstop : stops (x steps.toNat)
    · refine ⟨⟨steps, x steps.toNat⟩, m, ?_, Nat.le_refl _, Nat.le_add_right _ _, rfl, ?_, ?_⟩
      · rw [follow, if_pos hstop]
        rfl
      · exact fun n hle hlt ↦ absurd hle (Nat.not_le_of_lt hlt)
      · exact fun _ ↦ hstop
    · obtain ⟨m₁, hm₁⟩ := hnext steps.toNat m
      -- the limit leaves room for one more step, so counting does not wrap round
      have hroom : steps.toNat + 1 < UInt64.size := by omega
      have hsteps : (steps + 1).toNat = steps.toNat + 1 := by
        rw [UInt64.toNat_add, UInt64.toNat_one]
        exact Nat.mod_eq_of_lt hroom
      obtain ⟨o, m', hfollow, hfirst⟩ := ih (steps + 1) (by omega) m₁
      rw [hsteps] at hfollow hfirst
      refine ⟨o, m', ?_, ?_, ?_, hfirst.last_eq, fun n hle hlt ↦ ?_, fun hlt ↦ ?_⟩
      · rw [follow, if_neg hstop, EStateM.bind_of_eq_ok hm₁]
        exact hfollow
      · exact Nat.le_of_succ_le hfirst.start_le
      · have hle := hfirst.le_limit
        omega
      · rcases Nat.eq_or_lt_of_le hle with rfl | hle
        · exact Bool.eq_false_iff.2 hstop
        · exact hfirst.not_stops n hle hlt
      · exact hfirst.stops_last (by omega)

/-! ## Values and evaluations -/

namespace Program

variable {pool : Pool} {program : Program} {b b' : Bindings} {z : Point}

theorem value_eq_outcome (pool : Pool) (b : Bindings) (program : Program) (m : Machine) :
    program.value pool b = outcome (program.evaluate pool b m) := by
  rw [evaluate_eq_evaluate_new, value]
  cases program.evaluate pool b {} <;> rfl

theorem evaluate_of_value (h : program.value pool b = .ok z) (m : Machine) :
    ∃ m', program.evaluate pool b m = .ok z m' := by
  rw [value_eq_outcome pool b program m] at h
  exact outcome_eq_ok_iff.1 h

theorem evaluate_of_value_ne_ok (h : ∀ z, program.value pool b ≠ .ok z) (m : Machine) :
    ∃ fault m', program.evaluate pool b m = .error fault m' := by
  cases hrun : program.evaluate pool b m with
  | ok z m' => exact absurd (by rw [value_eq_outcome pool b program m, hrun]; rfl) (h z)
  | error fault m' => exact ⟨fault, m', rfl⟩

theorem exists_value (h : program.fits pool)
    (hb : ∀ v, program.reads pool v → (b.lookup v).isSome) : ∃ z, program.value pool b = .ok z := by
  obtain ⟨z, m', hz⟩ := exists_evaluate h hb {}
  exact ⟨z, by rw [value_eq_outcome pool b program {}, hz]; rfl⟩

theorem isConstant_iff : program.isConstant pool ↔ ∀ v, program.reads pool v = false := by
  rw [isConstant, List.all_eq_true]
  constructor
  · intro h v
    have hv : v ∈ Variable.all := by cases v <;> decide
    exact Bool.not_eq_eq_eq_not.1 (h v hv)
  · intro h v _
    rw [h v]
    rfl

theorem value_eq_of_isConstant (h : program.isConstant pool) :
    program.value pool b = program.value pool b' := by
  rw [value_eq_outcome pool b program {}, value_eq_outcome pool b' program {},
    evaluate_congr fun v hv ↦ absurd hv (Bool.eq_false_iff.1 (isConstant_iff.1 h v))]

end Program

namespace Recurrence

variable {raw : Text} {r : Recurrence} {s : Settings} {z : Point}

theorem ofPrograms_of_read (h : read raw = .ok r) : ofPrograms r.pool r.first r.next = .ok r := by
  obtain ⟨e₁, e₂, hready₁, hready₂, hr⟩ := ready_of_read h
  rw [hr]
  exact ofPrograms_of_ready hready₁ hready₂

theorem exists_start?_of_isConstant (h : ofPrograms r.pool r.first r.next = .ok r)
    (hconstant : r.first.isConstant r.pool) :
    ∃ w, r.start? = some w ∧ ∀ b, r.first.value r.pool b = .ok w := by
  obtain ⟨hfits, -, hr⟩ := ofPrograms_eq_ok_iff.1 h
  obtain ⟨w, hw⟩ := Program.exists_value (b := .zero) hfits fun v _ ↦
    Bindings.isSome_lookup_zero v
  refine ⟨w, ?_, fun b ↦ (Program.value_eq_of_isConstant hconstant).trans hw⟩
  have hstart := congrArg start? hr
  rwa [if_pos hconstant, hw] at hstart

theorem start?_eq_none (h : ofPrograms r.pool r.first r.next = .ok r)
    (hconstant : ¬r.first.isConstant r.pool) : r.start? = none := by
  have hstart := congrArg start? (ofPrograms_eq_ok_iff.1 h).2.2
  rwa [if_neg hconstant] at hstart

theorem outcome_firstTerm (h : ofPrograms r.pool r.first r.next = .ok r) (s : Settings) (z : Point)
    (m : Machine) : outcome (r.firstTerm s z m) = r.first.value r.pool (.atStart z s.selected) := by
  by_cases hconstant : r.first.isConstant r.pool
  · obtain ⟨w, hstart, hw⟩ := exists_start?_of_isConstant h hconstant
    rw [hw, firstTerm, hstart]
    rfl
  · rw [Program.value_eq_outcome _ _ _ m, firstTerm, start?_eq_none h hconstant]

/-! ## Sequences -/

/-- The terms of the sequence of a point, each worked out on its own. -/
def term (r : Recurrence) (selected : Option Point) (z : Point) : Nat → Except Fault Point
  | 0 => r.first.value r.pool (.atStart z selected)
  | n + 1 => do
    let first ← r.first.value r.pool (.atStart z selected)
    let previous ← r.term selected z n
    r.next.value r.pool (.later z selected first previous)

theorem value_of_term {selected : Option Point} {x : Nat → Point}
    (hx : ∀ n, r.term selected z n = .ok (x n)) (n : Nat) :
    r.next.value r.pool (.later z selected (x 0) (x n)) = .ok (x (n + 1)) := by
  have hfirst : r.first.value r.pool (.atStart z selected) = .ok (x 0) := hx 0
  have hterm := hx (n + 1)
  rw [term, hfirst, hx n] at hterm
  exact hterm

/-- If the selected point is there where it is needed, it is there for every program that reads
it. -/
theorem isSome_selected {selected : Option Point}
    (hselected : selected.isSome ∨ r.needsSelected = false)
    (hreads : r.first.reads r.pool .selected ∨ r.next.reads r.pool .selected) :
    selected.isSome := by
  refine hselected.resolve_right fun hneeds ↦ ?_
  rw [needsSelected, Bool.or_eq_true_iff.2 hreads] at hneeds
  cases hneeds

section

variable (h : read raw = .ok r) {selected : Option Point}
  (hselected : selected.isSome ∨ r.needsSelected = false)
include h hselected

theorem exists_value_first (z : Point) :
    ∃ x, r.first.value r.pool (.atStart z selected) = .ok x := by
  obtain ⟨hfits, -, -⟩ := ofPrograms_eq_ok_iff.1 (ofPrograms_of_read h)
  refine Program.exists_value hfits fun v hv ↦ ?_
  have hknown : v.knownAtStart := knownAtStart_of_reads h hv
  cases v with
  | current => rfl
  | selected => exact isSome_selected hselected (.inl hv)
  | first => cases hknown
  | previous => cases hknown

theorem exists_value_next (z first previous : Point) :
    ∃ x, r.next.value r.pool (.later z selected first previous) = .ok x := by
  obtain ⟨-, hfits, -⟩ := ofPrograms_eq_ok_iff.1 (ofPrograms_of_read h)
  refine Program.exists_value hfits fun v hv ↦ ?_
  cases v with
  | current => rfl
  | selected => exact isSome_selected hselected (.inr hv)
  | first => rfl
  | previous => rfl

/-- So the sequence of a point has all its terms. -/
theorem exists_term (z : Point) : ∃ x : Nat → Point, ∀ n, r.term selected z n = .ok (x n) := by
  have hterm (n : Nat) : ∃ x, r.term selected z n = .ok x := by
    induction n with
    | zero => exact exists_value_first h hselected z
    | succ n ih =>
      obtain ⟨first, hfirst⟩ := exists_value_first h hselected z
      obtain ⟨previous, hprevious⟩ := ih
      obtain ⟨x, hx⟩ := exists_value_next h hselected z first previous
      exact ⟨x, by rw [term, hfirst, hprevious]; exact hx⟩
  exact ⟨fun n ↦ (hterm n).choose, fun n ↦ (hterm n).choose_spec⟩

end

theorem orbit_firstStop (h : ofPrograms r.pool r.first r.next = .ok r)
    (hcap : s.cap.toNat + 1 < UInt64.size) {x : Nat → Point}
    (hx : ∀ n, r.term s.selected z n = .ok (x n)) (m : Machine) :
    ∃ o m', r.orbit s z m = (some o, m') ∧ o.FirstStop s.rule.stops x 0 (s.cap.toNat + 1) := by
  obtain ⟨m₁, hm₁⟩ := outcome_eq_ok_iff.1 ((outcome_firstTerm h s z m).trans (hx 0))
  have hnext (n : Nat) (m : Machine) :
      ∃ m', r.nextTerm s z (x 0) (x n) m = .ok (x (n + 1)) m' :=
    Program.evaluate_of_value (value_of_term hx n) m
  obtain ⟨o, m', hfollow, hstop⟩ := Orbit.follow_firstStop s.rule.stops hnext
    (s.cap.toNat + 1) 0 (by rwa [UInt64.toNat_zero, Nat.zero_add]) m₁
  rw [UInt64.toNat_zero] at hfollow hstop
  rw [Nat.zero_add] at hstop
  refine ⟨o, m', ?_, hstop⟩
  have htrace : r.trace s z m = .ok o m' := (EStateM.bind_of_eq_ok hm₁).trans hfollow
  rw [orbit, htrace]

end Recurrence

/-- **The orbit of a point ends at the first term at which its sequence is stopped.** For a formula
whose selected point is there if it is needed, the sequence of any point has all its terms, and its
orbit takes as many steps as lead to the first term that is stopped. If none of the terms up to the
cap is stopped, the orbit takes one step more than the cap, and the term that this leads to is not
looked at. So the color is that of a sequence that was stopped exactly if one of these terms is. -/
theorem orbit_of_read {raw : Text} {r : Recurrence} (h : Recurrence.read raw = .ok r)
    (s : Settings) (hcap : s.cap.toNat + 1 < UInt64.size)
    (hselected : s.selected.isSome ∨ r.needsSelected = false) (z : Point) (m : Machine) :
    ∃ (x : Nat → Point) (o : Orbit) (m' : Machine),
      (∀ n, r.term s.selected z n = .ok (x n)) ∧ r.orbit s z m = (some o, m') ∧
      o.last = x o.steps.toNat ∧
      ((∃ n ≤ s.cap.toNat, s.rule.stops (x n)) →
        IsLeast {n | n ≤ s.cap.toNat ∧ s.rule.stops (x n)} o.steps.toNat) ∧
      ((¬∃ n ≤ s.cap.toNat, s.rule.stops (x n)) → o.steps.toNat = s.cap.toNat + 1) ∧
      r.color s z m = (some (s.rule.color o.last o.steps s.cap), m') ∧
      (o.steps ≤ s.cap ↔ ∃ n ≤ s.cap.toNat, s.rule.stops (x n)) := by
  obtain ⟨x, hx⟩ := Recurrence.exists_term h hselected z
  obtain ⟨o, m', horbit, hstop⟩ :=
    Recurrence.orbit_firstStop (Recurrence.ofPrograms_of_read h) hcap hx m
  have hcolor : r.color s z m = (some (s.rule.color o.last o.steps s.cap), m') := by
    rw [Recurrence.color, horbit]
    rfl
  -- up to the cap, the orbit ends exactly where the sequence is first stopped
  have hlast (hle : o.steps.toNat ≤ s.cap.toNat) : s.rule.stops (x o.steps.toNat) :=
    hstop.stops_last (Nat.lt_succ_of_le hle)
  have hleast {n : Nat} (hn : s.rule.stops (x n)) : o.steps.toNat ≤ n := by
    refine Nat.le_of_not_lt fun hlt ↦ ?_
    rw [hstop.not_stops n (Nat.zero_le n) hlt] at hn
    cases hn
  refine ⟨x, o, m', hx, horbit, hstop.last_eq, ?_, ?_, hcolor, ?_⟩
  · rintro ⟨n, hn, hstops⟩
    have hle := Nat.le_trans (hleast hstops) hn
    exact ⟨⟨hle, hlast hle⟩, fun k hk ↦ hleast hk.2⟩
  · intro hnone
    refine Nat.le_antisymm hstop.le_limit (Nat.succ_le_of_lt (Nat.lt_of_not_le fun hle ↦ ?_))
    exact hnone ⟨_, hle, hlast hle⟩
  · rw [UInt64.le_iff_toNat_le]
    exact ⟨fun hle ↦ ⟨_, hle, hlast hle⟩, fun ⟨n, hn, hstops⟩ ↦ Nat.le_trans (hleast hstops) hn⟩

/-- One step leads from one to two, which is far enough from the origin. -/
theorem orbit_of_read_of_one : ∃ r, Recurrence.read "c;p*p+c".toList = .ok r ∧
    ∃ (x : Nat → Point) (o : Orbit) (m' : Machine), r.term none ⟨1, 0⟩ 1 = .ok (x 1) ∧
      r.orbit { cap := 5 } ⟨1, 0⟩ {} = (some o, m') ∧ o.last = x o.steps.toNat := by
  have hneeds : (Recurrence.read "c;p*p+c".toList).toOption.map Recurrence.needsSelected =
      some false := by decide +kernel
  cases hread : Recurrence.read "c;p*p+c".toList with
  | error e => rw [hread] at hneeds; cases hneeds
  | ok r =>
    rw [hread] at hneeds
    obtain ⟨x, o, m', hx, horbit, hlast, -⟩ := orbit_of_read hread { cap := 5 } (by decide)
      (.inr (Option.some.inj hneeds)) ⟨1, 0⟩ {}
    exact ⟨r, rfl, x, o, m', hx 1, horbit, hlast⟩

end OrbitPlot
