import OrbitPlot.Proofs.Recurrence.Sequence

/-!
# Counting steps in a word

Steps are counted in a machine word, and the cap is such a word too. A sequence is followed in
rounds as long as it has not been stopped and no more steps have been taken than the cap says, so a
sequence that is never stopped is left when the count has got past the cap. Past the largest word
there is nothing to get to. With that cap the count starts again from zero, and the rounds go on.

The rounds are looked at here on their own, however many there are. That they end within what can be
counted is then a theorem, with the largest cap as its one exception; and where they do, the orbit
is what they end with.

## Main statements

* `Recurrence.toNat_steps_of_rounds`: what the count says after any number of rounds.
* `Recurrence.orbit_of_rounds`: the orbit is what the rounds end with.
* `Recurrence.orbit_of_yields`: so it is what comes of the sequence, if anything does.
* `rounds_of_read`: when the rounds end, and what the count says then.
-/

namespace OrbitPlot

open Machine

/-! ## Rounds -/

/-- A sequence is followed no further: it is stopped, or more steps were taken than the cap says. -/
def Settings.over (s : Settings) (o : Orbit) : Bool := s.rule.stops o.last || s.cap < o.steps

namespace Recurrence

variable {r : Recurrence} {s : Settings} {z first : Point} {n : Nat} {o : Orbit}

/-- One round of following a sequence that starts at `first`: unless it is followed no further, its
next term is worked out, if that has a value, and the step is counted. -/
def round (r : Recurrence) (s : Settings) (z first : Point) (o : Orbit) : Option Orbit :=
  if s.over o then none
  else
    match r.next.value r.pool (.later z s.selected first o.last) with
    | .ok w => some ⟨o.steps + 1, w⟩
    | .error _ => none

/-- What a number of rounds come to, if there are so many. -/
def rounds (r : Recurrence) (s : Settings) (z first : Point) : Nat → Option Orbit
  | 0 => some ⟨0, first⟩
  | n + 1 => (r.rounds s z first n).bind (r.round s z first)

theorem round_eq_some_iff {o' : Orbit} :
    r.round s z first o = some o' ↔ s.over o = false ∧ ∃ w,
      r.next.value r.pool (.later z s.selected first o.last) = .ok w ∧ o' = ⟨o.steps + 1, w⟩ := by
  unfold round
  by_cases hover : s.over o
  · simp [hover]
  · rcases hvalue : r.next.value r.pool (.later z s.selected first o.last) with fault | w
    · simp [hover]
    · simp [hover, eq_comm]

theorem rounds_succ_eq_some_iff {o' : Orbit} :
    r.rounds s z first (n + 1) = some o' ↔
      ∃ o, r.rounds s z first n = some o ∧ r.round s z first o = some o' :=
  Option.bind_eq_some_iff

theorem exists_rounds_of_le {k : Nat} (hk : k ≤ n) (h : r.rounds s z first n = some o) :
    ∃ o', r.rounds s z first k = some o' := by
  induction n generalizing o with
  | zero => exact ⟨o, Nat.le_zero.1 hk ▸ h⟩
  | succ n ih =>
    rcases Nat.eq_or_lt_of_le hk with rfl | hlt
    · exact ⟨o, h⟩
    · obtain ⟨o', ho', -⟩ := rounds_succ_eq_some_iff.1 h
      exact ih (Nat.le_of_lt_succ hlt) ho'

theorem exists_last_round (h : r.rounds s z first n = none) :
    ∃ k o, k < n ∧ r.rounds s z first k = some o ∧ r.round s z first o = none := by
  induction n with
  | zero => cases h
  | succ n ih =>
    rcases hn : r.rounds s z first n with _ | o
    · obtain ⟨k, o, hk, hlast⟩ := ih hn
      exact ⟨k, o, Nat.lt_succ_of_lt hk, hlast⟩
    · refine ⟨n, o, Nat.lt_succ_self n, hn, ?_⟩
      rw [rounds, hn] at h
      exact h

/-! ## What rounds come to -/

/-- Each round counts one step, and the count starts again when it has come to its end. -/
theorem steps_of_rounds (h : r.rounds s z first n = some o) : o.steps = UInt64.ofNat n := by
  induction n generalizing o with
  | zero =>
    cases h
    rfl
  | succ n ih =>
    obtain ⟨o', ho', hround⟩ := rounds_succ_eq_some_iff.1 h
    obtain ⟨-, w, -, rfl⟩ := round_eq_some_iff.1 hround
    rw [ih ho', UInt64.ofNat_add]
    rfl

theorem toNat_steps_of_rounds (h : r.rounds s z first n = some o) :
    o.steps.toNat = n % UInt64.size := by
  rw [steps_of_rounds h, UInt64.toNat_ofNat']

theorem toNat_steps_of_lt (h : r.rounds s z first n = some o) (hn : n < UInt64.size) :
    o.steps.toNat = n := by
  rw [toNat_steps_of_rounds h, Nat.mod_eq_of_lt hn]

theorem term_of_rounds (hfirst : r.first.value r.pool (.atStart z s.selected) = .ok first)
    (h : r.rounds s z first n = some o) : r.term s.selected z n = .ok o.last := by
  induction n generalizing o with
  | zero =>
    cases h
    exact hfirst
  | succ n ih =>
    obtain ⟨o', ho', hround⟩ := rounds_succ_eq_some_iff.1 h
    obtain ⟨-, w, hw, rfl⟩ := round_eq_some_iff.1 hround
    rw [term, hfirst, ih ho']
    exact hw

/-- A sequence that has all its terms is followed for as many rounds as it is neither stopped nor
the count past the cap. -/
theorem rounds_of_not_stops {x : Nat → Point} (hx : ∀ n, r.term s.selected z n = .ok (x n))
    (hcap : ∀ k < n, k % UInt64.size ≤ s.cap.toNat) (hstops : ∀ k < n, s.rule.stops (x k) = false) :
    r.rounds s z (x 0) n = some ⟨UInt64.ofNat n, x n⟩ := by
  induction n with
  | zero => rfl
  | succ n ih =>
    have hn := ih (fun k hk ↦ hcap k (Nat.lt_succ_of_lt hk)) fun k hk ↦
      hstops k (Nat.lt_succ_of_lt hk)
    refine rounds_succ_eq_some_iff.2 ⟨_, hn, round_eq_some_iff.2 ⟨?_, x (n + 1), ?_, ?_⟩⟩
    · have hle : UInt64.ofNat n ≤ s.cap := by
        rw [UInt64.le_iff_toNat_le, UInt64.toNat_ofNat']
        exact hcap n (Nat.lt_succ_self n)
      simp [Settings.over, hstops n (Nat.lt_succ_self n), UInt64.not_lt.2 hle]
    · exact value_of_term hx n
    · rw [UInt64.ofNat_add]
      rfl

theorem rounds_eq_none (hcap : s.cap.toNat + 1 < UInt64.size) :
    r.rounds s z first (s.cap.toNat + 2) = none := by
  refine Option.eq_none_iff_forall_not_mem.2 fun o ho ↦ ?_
  obtain ⟨o', ho', hround⟩ := rounds_succ_eq_some_iff.1 ho
  obtain ⟨hover, -⟩ := round_eq_some_iff.1 hround
  have hlt : s.cap < o'.steps := by
    rw [UInt64.lt_iff_toNat_lt, toNat_steps_of_lt ho' hcap]
    exact Nat.lt_succ_self _
  simp [Settings.over, hlt] at hover

theorem rounds_succ_eq_none (hfirst : r.first.value r.pool (.atStart z s.selected) = .ok first)
    (hstops : ∀ w, r.term s.selected z n = .ok w → s.rule.stops w) :
    r.rounds s z first (n + 1) = none := by
  refine Option.eq_none_iff_forall_not_mem.2 fun o ho ↦ ?_
  obtain ⟨o', ho', hround⟩ := rounds_succ_eq_some_iff.1 ho
  obtain ⟨hover, -⟩ := round_eq_some_iff.1 hround
  simp [Settings.over, hstops _ (term_of_rounds hfirst ho')] at hover

/-! ## Rounds and orbits -/

/-- After any number of rounds, the sequence is followed from where they have led. -/
theorem follow_of_rounds (hn : n ≤ s.cap.toNat + 1) (h : r.rounds s z first n = some o)
    (m : Machine) : ∃ m',
      Orbit.follow s.rule.stops (r.nextTerm s z first) (s.cap.toNat + 1) 0 first m =
        Orbit.follow s.rule.stops (r.nextTerm s z first) (s.cap.toNat + 1 - n) o.steps o.last
          m' := by
  induction n generalizing o with
  | zero =>
    cases h
    exact ⟨m, rfl⟩
  | succ n ih =>
    obtain ⟨o', ho', hround⟩ := rounds_succ_eq_some_iff.1 h
    obtain ⟨hover, w, hw, rfl⟩ := round_eq_some_iff.1 hround
    obtain ⟨m₁, hm₁⟩ := ih (Nat.le_of_succ_le hn) ho'
    obtain ⟨m₂, hm₂⟩ := Program.evaluate_of_value hw m₁
    have hleft : s.cap.toNat + 1 - n = s.cap.toNat + 1 - (n + 1) + 1 := by omega
    have hstop : s.rule.stops o'.last = false := (Bool.or_eq_false_iff.1 hover).1
    refine ⟨m₂, ?_⟩
    rw [hm₁, hleft, Orbit.follow, hstop]
    exact EStateM.bind_of_eq_ok hm₂

/-- If the rounds end before the count does, the orbit is what they end with, or there is none if
they end because the next term has no value. -/
theorem orbit_of_rounds (h : ofPrograms r.pool r.first r.next = .ok r)
    (hfirst : r.first.value r.pool (.atStart z s.selected) = .ok first) (hn : n < UInt64.size)
    (hle : n ≤ s.cap.toNat + 1) (hrounds : r.rounds s z first n = some o)
    (hlast : r.round s z first o = none) (m : Machine) :
    (r.orbit s z m).1 = if s.over o then some o else none := by
  obtain ⟨m₁, hm₁⟩ := outcome_eq_ok_iff.1 ((outcome_firstTerm h s z m).trans hfirst)
  obtain ⟨m₂, hm₂⟩ := follow_of_rounds hle hrounds m₁
  have htrace : r.trace s z m = Orbit.follow s.rule.stops (r.nextTerm s z first)
      (s.cap.toNat + 1 - n) o.steps o.last m₂ := (EStateM.bind_of_eq_ok hm₁).trans hm₂
  have hsteps := toNat_steps_of_lt hrounds hn
  by_cases hover : s.over o
  · rw [if_pos hover]
    rcases hleft : s.cap.toNat + 1 - n with _ | left
    · rw [hleft] at htrace
      rw [orbit, htrace]
      rfl
    · -- there are steps left to the cap, so it is the sequence that is stopped
      have hle : o.steps ≤ s.cap := by
        rw [UInt64.le_iff_toNat_le, hsteps]
        omega
      have hstop : s.rule.stops o.last := by
        simpa [Settings.over, UInt64.not_lt.2 hle] using hover
      rw [hleft, Orbit.follow, hstop] at htrace
      rw [orbit, htrace]
      rfl
  · rw [if_neg hover]
    obtain ⟨hstop, hcap⟩ := Bool.or_eq_false_iff.1 (Bool.eq_false_iff.2 hover)
    have hle : o.steps.toNat ≤ s.cap.toNat :=
      UInt64.le_iff_toNat_le.1 (UInt64.not_lt.1 (of_decide_eq_false hcap))
    obtain ⟨left, hleft⟩ : ∃ left, s.cap.toNat + 1 - n = left + 1 :=
      ⟨s.cap.toNat - n, by omega⟩
    have hvalue (w : Point) : r.next.value r.pool (.later z s.selected first o.last) ≠ .ok w := by
      intro hw
      have hsome := round_eq_some_iff.2 ⟨Bool.eq_false_iff.2 hover, w, hw, rfl⟩
      cases hlast.symm.trans hsome
    obtain ⟨fault, m₃, hfault⟩ := Program.evaluate_of_value_ne_ok hvalue m₂
    rw [hleft, Orbit.follow, hstop] at htrace
    rw [orbit, htrace.trans (EStateM.bind_of_eq_error hfault)]

/-- A term stops a sequence, unless it has a value at which the sequence is not stopped. -/
def StopsAt (r : Recurrence) (s : Settings) (z : Point) (n : Nat) : Prop :=
  ∀ w, r.term s.selected z n = .ok w → s.rule.stops w

/-- What the rounds have come to when they end: so many, within what can be counted, and the orbit.
Unless the last term lacks its value, the count is past the cap exactly if no term up to the cap
stops the sequence. -/
structure Finishes (r : Recurrence) (s : Settings) (z first : Point) (n : Nat) (o : Orbit) :
    Prop where
  /-- There are so many rounds. -/
  rounds_eq : r.rounds s z first n = some o
  /-- None follows. -/
  round_eq : r.round s z first o = none
  /-- There are at most as many as the cap allows, and one more. -/
  le_succ : n ≤ s.cap.toNat + 1
  /-- The count is right. -/
  toNat_steps : o.steps.toNat = n
  /-- The orbit is what they have come to. -/
  orbit_eq : ∀ m, (r.orbit s z m).1 = if s.over o then some o else none
  /-- The count tells whether the sequence was stopped. -/
  lt_steps_iff : s.over o → (s.cap < o.steps ↔ ∀ k ≤ s.cap.toNat, ¬r.StopsAt s z k)

theorem finishes_of_rounds (h : ofPrograms r.pool r.first r.next = .ok r)
    (hfirst : r.first.value r.pool (.atStart z s.selected) = .ok first) (hn : n < UInt64.size)
    (hle : n ≤ s.cap.toNat + 1) (hrounds : r.rounds s z first n = some o)
    (hlast : r.round s z first o = none) : r.Finishes s z first n o := by
  have hsteps := toNat_steps_of_lt hrounds hn
  refine ⟨hrounds, hlast, hle, hsteps, orbit_of_rounds h hfirst hn hle hrounds hlast,
    fun hover ↦ ⟨fun hlt k hk hstops ↦ ?_, fun hnone ↦ ?_⟩⟩
  · rw [UInt64.lt_iff_toNat_lt, hsteps] at hlt
    obtain ⟨o', ho'⟩ := exists_rounds_of_le (Nat.succ_le_of_lt (Nat.lt_of_le_of_lt hk hlt)) hrounds
    cases (rounds_succ_eq_none hfirst hstops).symm.trans ho'
  · by_contra hcap
    have hle : n ≤ s.cap.toNat := by
      rw [← hsteps]
      exact UInt64.le_iff_toNat_le.1 (UInt64.not_lt.1 hcap)
    refine hnone n hle fun w hw ↦ ?_
    rw [term_of_rounds hfirst hrounds] at hw
    cases hw
    simpa [Settings.over, hcap] using hover

/-- The rounds end within what can be counted, unless the cap is the largest there is and no term up
to it stops the sequence. -/
theorem exists_finishes (h : ofPrograms r.pool r.first r.next = .ok r)
    (hfirst : r.first.value r.pool (.atStart z s.selected) = .ok first)
    (hend : s.cap.toNat + 1 < UInt64.size ∨ ∃ k ≤ s.cap.toNat, r.StopsAt s z k) :
    ∃ n o, r.Finishes s z first n o := by
  rcases hend with hcap | ⟨k, hk, hstops⟩
  · obtain ⟨n, o, hlt, hrounds, hlast⟩ := exists_last_round (rounds_eq_none hcap)
    have hle := Nat.le_of_lt_succ hlt
    exact ⟨n, o, finishes_of_rounds h hfirst (Nat.lt_of_le_of_lt hle hcap) hle hrounds hlast⟩
  · obtain ⟨n, o, hlt, hrounds, hlast⟩ := exists_last_round (rounds_succ_eq_none hfirst hstops)
    have hle := Nat.le_trans (Nat.le_of_lt_succ hlt) hk
    exact ⟨n, o, finishes_of_rounds h hfirst (Nat.lt_of_le_of_lt hle s.cap.toNat_lt)
      (Nat.le_succ_of_le hle) hrounds hlast⟩

/-! ## What a sequence comes to

`Orbit.follow` takes one step more than the cap at most, and so it comes to an end with the largest
cap, too, where the rounds may have none. What the rounds come to is therefore said without it. It
is what the orbit is; but there need not be anything that they come to. -/

/-- What comes of a sequence, if its rounds end before the count does: the orbit they end with, or
none if a term that is due has no value. -/
inductive Yields (r : Recurrence) (s : Settings) (z : Point) : Option Orbit → Prop
  /-- There is no first term. -/
  | unstarted {fault : Fault}
    (hfirst : r.first.value r.pool (.atStart z s.selected) = .error fault) : Yields r s z none
  /-- There is a last round. -/
  | ended {first : Point} {n : Nat} {o : Orbit}
    (hfirst : r.first.value r.pool (.atStart z s.selected) = .ok first) (hn : n < UInt64.size)
    (hrounds : r.rounds s z first n = some o) (hlast : r.round s z first o = none) :
    Yields r s z (if s.over o then some o else none)

theorem le_of_rounds (hn : n < UInt64.size) (h : r.rounds s z first n = some o) :
    n ≤ s.cap.toNat + 1 := by
  by_contra hlt
  have hlt := Nat.lt_of_not_le hlt
  obtain ⟨o', ho'⟩ := exists_rounds_of_le hlt h
  rw [rounds_eq_none (by omega)] at ho'
  cases ho'

theorem orbit_of_yields (h : ofPrograms r.pool r.first r.next = .ok r) {o? : Option Orbit}
    (hyields : r.Yields s z o?) (m : Machine) : (r.orbit s z m).1 = o? := by
  cases hyields with
  | @unstarted fault hfirst =>
    obtain ⟨m', hm'⟩ := outcome_eq_error_iff.1 ((outcome_firstTerm h s z m).trans hfirst)
    have htrace : r.trace s z m = .error fault m' := EStateM.bind_of_eq_error hm'
    rw [orbit, htrace]
  | ended hfirst hn hrounds hlast =>
    exact orbit_of_rounds h hfirst hn (le_of_rounds hn hrounds) hrounds hlast m

theorem Yields.unique (h : ofPrograms r.pool r.first r.next = .ok r) {o? o?' : Option Orbit}
    (hyields : r.Yields s z o?) (hyields' : r.Yields s z o?') : o? = o?' := by
  rw [← orbit_of_yields h hyields {}, ← orbit_of_yields h hyields' {}]

theorem exists_yields (h : ofPrograms r.pool r.first r.next = .ok r)
    (hend : s.cap.toNat + 1 < UInt64.size ∨ ∃ k ≤ s.cap.toNat, r.StopsAt s z k) :
    ∃ o?, r.Yields s z o? := by
  rcases hfirst : r.first.value r.pool (.atStart z s.selected) with fault | first
  · exact ⟨none, .unstarted hfirst⟩
  · obtain ⟨n, o, hfinishes⟩ := exists_finishes h hfirst hend
    have hn : n < UInt64.size := by
      rw [← hfinishes.toNat_steps]
      exact o.steps.toNat_lt
    exact ⟨_, .ended hfirst hn hfinishes.rounds_eq hfinishes.round_eq⟩

/-- With the largest cap, the rounds never end at the origin: all terms are the origin again, and
each time that the steps have filled the word, the count starts anew. -/
theorem exists_rounds_of_largest_cap : ∃ r : Recurrence, read "c;p*p+c".toList = .ok r ∧
    r.first.value r.pool (.atStart .zero none) = .ok .zero ∧
    ∀ n, r.rounds { cap := 18446744073709551615 } .zero .zero n = some ⟨UInt64.ofNat n, .zero⟩ := by
  have hvalues : (read "c;p*p+c".toList).toOption.map (fun r ↦
      ((r.first.value r.pool (.atStart .zero none)).toOption,
        (r.next.value r.pool (.later .zero none .zero .zero)).toOption)) =
      some (some .zero, some .zero) := by decide +kernel
  have hstops : StopRule.escape.stops .zero = false := by decide +kernel
  rcases hread : read "c;p*p+c".toList with e | r
  · rw [hread] at hvalues
    cases hvalues
  · rw [hread] at hvalues
    obtain ⟨hfirst, hnext⟩ := Prod.mk.inj (Option.some.inj hvalues)
    have hfirst := Except.eq_ok_of_toOption_eq_some hfirst
    have hnext := Except.eq_ok_of_toOption_eq_some hnext
    have hterm (n : Nat) : r.term none .zero n = .ok .zero := by
      induction n with
      | zero => exact hfirst
      | succ n ih =>
        rw [term, hfirst, ih]
        exact hnext
    refine ⟨r, rfl, hfirst, fun n ↦ rounds_of_not_stops (x := fun _ ↦ .zero) hterm ?_ ?_⟩
    · exact fun k _ ↦ Nat.le_of_lt_succ (Nat.mod_lt k (by decide))
    · exact fun _ _ ↦ hstops

end Recurrence

/-- **The count of steps ends within its word, but for the largest cap.** For any formula, settings
and point whose sequence has a first term, the count says after any number of rounds how many there
were, up to multiples of the size of the word. If there is a word past the cap, or some term up to
the cap stops the sequence, then the rounds end, and none is more than one past the cap; the count
is right, what they have come to is the orbit, and the count is past the cap exactly if no term up
to it stops the sequence. If the cap is the largest word and none of these terms stops the sequence,
the count comes back to zero. Then nothing but a later term ends the rounds, and if there is no such
term they never end. -/
theorem rounds_of_read {raw : Text} {r : Recurrence} (h : Recurrence.read raw = .ok r)
    (s : Settings) (z first : Point)
    (hfirst : r.first.value r.pool (.atStart z s.selected) = .ok first) :
    (∀ n o, r.rounds s z first n = some o → o.steps.toNat = n % UInt64.size) ∧
    (s.cap.toNat + 1 < UInt64.size ∨ (∃ k ≤ s.cap.toNat, r.StopsAt s z k) →
      ∃ n o, r.Finishes s z first n o) ∧
    ∀ x : Nat → Point, (∀ n, r.term s.selected z n = .ok (x n)) →
      s.cap.toNat + 1 = UInt64.size →
        ((∀ k ≤ s.cap.toNat, s.rule.stops (x k) = false) →
          r.rounds s z first UInt64.size = some ⟨0, x UInt64.size⟩) ∧
        ((∃ n, r.rounds s z first n = none) ↔ ∃ n, s.rule.stops (x n)) := by
  have hmade := Recurrence.ofPrograms_of_read h
  refine ⟨fun n o ↦ Recurrence.toNat_steps_of_rounds, Recurrence.exists_finishes hmade hfirst,
    fun x hx hcap ↦ ?_⟩
  obtain rfl : first = x 0 := Except.ok.inj (hfirst.symm.trans (hx 0))
  -- with the largest cap, no count is past the cap
  have hle (k : Nat) : k % UInt64.size ≤ s.cap.toNat :=
    Nat.le_of_lt_succ (hcap ▸ Nat.mod_lt k (hcap ▸ Nat.succ_pos _))
  refine ⟨fun hstops ↦ ?_, fun ⟨n, hn⟩ ↦ ?_, fun ⟨n, hn⟩ ↦ ?_⟩
  · refine Recurrence.rounds_of_not_stops hx (fun k _ ↦ hle k) fun k hk ↦ ?_
    exact hstops k (Nat.le_of_lt_succ (Nat.lt_of_lt_of_eq hk hcap.symm))
  · by_contra hnone
    have hstops (k : Nat) : s.rule.stops (x k) = false :=
      Bool.eq_false_iff.2 fun hk ↦ hnone ⟨k, hk⟩
    rw [Recurrence.rounds_of_not_stops hx (fun k _ ↦ hle k) fun k _ ↦ hstops k] at hn
    cases hn
  · refine ⟨n + 1, Recurrence.rounds_succ_eq_none hfirst fun w hw ↦ ?_⟩
    rw [hx n] at hw
    cases hw
    exact hn

/-- From one, the rounds end. -/
theorem rounds_of_read_of_one : ∃ r, Recurrence.read "c;p*p+c".toList = .ok r ∧
    ∃ n o, r.Finishes { cap := 5 } ⟨1, 0⟩ ⟨1, 0⟩ n o := by
  have hvalue : (Recurrence.read "c;p*p+c".toList).toOption.map (fun r ↦
      (r.first.value r.pool (.atStart ⟨1, 0⟩ none)).toOption) = some (some ⟨1, 0⟩) := by
    decide +kernel
  rcases hread : Recurrence.read "c;p*p+c".toList with e | r
  · rw [hread] at hvalue
    cases hvalue
  · rw [hread] at hvalue
    have hfirst := Except.eq_ok_of_toOption_eq_some (Option.some.inj hvalue)
    obtain ⟨-, hfinishes, -⟩ := rounds_of_read hread { cap := 5 } ⟨1, 0⟩ ⟨1, 0⟩ hfirst
    exact ⟨r, rfl, hfinishes (.inl (by decide))⟩

/-- With the largest cap, the sequence of the origin is followed for ever: all its terms are the
origin, and each time that the steps have filled the word, the count starts again. -/
theorem exists_endless_rounds : ∃ (r : Recurrence) (s : Settings),
    Recurrence.read "c;p*p+c".toList = .ok r ∧ s.cap.toNat + 1 = UInt64.size ∧
      r.first.value r.pool (.atStart .zero s.selected) = .ok .zero ∧
      r.rounds s .zero .zero UInt64.size = some ⟨0, .zero⟩ ∧
      ∀ n, r.rounds s .zero .zero n ≠ none := by
  obtain ⟨r, hread, hfirst, hrounds⟩ := Recurrence.exists_rounds_of_largest_cap
  refine ⟨r, { cap := 18446744073709551615 }, hread, rfl, hfirst, hrounds _, fun n hn ↦ ?_⟩
  rw [hrounds n] at hn
  cases hn

end OrbitPlot
