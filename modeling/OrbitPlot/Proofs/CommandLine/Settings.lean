import OrbitPlot.Proofs.CommandLine.Values

/-!
# How orbits are to be followed

The cap, the stopping rule and the selected point that accepted arguments ask for. The value of an
option is read once to see whether it is taken, and once more for what it says. The two readings are
not the same everywhere: a number of iterations is looked at as a signed word of 32 bits and used as
an unsigned one of 64, and the name of a trap is looked up in a list before it is compared with the
names of the rules. They agree nevertheless, so nothing falls back on what was not asked for.

## Main statements

* `Numeral.naturalBelow?_of_integer32?`: the two ways to read a positive number agree.
* `Opt.settles_of_checkValue`: what an accepted value says.
* `Arguments.isSome_value?_iff`: an option without a default has a value exactly if it is given.
* `Arguments.sets_settings`, `Arguments.Sets.unique`: orbits are followed as the arguments ask for,
  and they ask for one thing only.
-/

namespace OrbitPlot

/-! ## Whole numbers -/

/-- A positive number that fits into 32 bits with a sign is read in the same way without a sign:
there is no minus in front of it. -/
theorem Numeral.naturalBelow?_of_integer32? {text : Text} {n : Int}
    (h : integer32? text = some n) (hn : 0 < n) :
    naturalBelow? UInt64.size text = some n.toNat := by
  obtain ⟨hinteger, hword⟩ := Option.filter_eq_some_iff.1 h
  have hlt : n < 0x80000000 := by
    rw [Bool.and_eq_true, decide_eq_true_iff, decide_eq_true_iff] at hword
    exact hword.2
  have hnatural : natural? text = some n.toNat := by
    unfold integer? at hinteger
    split at hinteger
    · -- After a minus there is no positive number.
      obtain ⟨k, hk, rfl⟩ := Option.map_eq_some_iff.1 hinteger
      obtain ⟨digits, -, hdigits⟩ := Option.bind_eq_some_iff.1 hk
      cases hdigits
      omega
    · obtain ⟨k, hk, rfl⟩ := Option.map_eq_some_iff.1 hinteger
      exact hk
  have hbound : n.toNat < UInt64.size := by
    have hsize : UInt64.size = 2 ^ 64 := rfl
    omega
  exact Option.filter_eq_some_iff.2 ⟨hnatural, decide_eq_true hbound⟩

/-! ## What an accepted value says -/

namespace Opt

/-- The names of stopping rules that are taken, with their rules. -/
def trapRules : List (String × StopRule) :=
  [("default", .escape), ("circle", .usualCircle), ("axis", .usualAxes),
    ("diagonal", .usualDiagonals)]

/-- The value of an option says something, and the reading that looks at it and the one that uses it
find the same. -/
def Settles : Opt → Text → Prop
  | size, text => ∃ width height,
    Numeral.pair? (Numeral.naturalBelow? UInt16.size) 'x' text = some (width, height) ∧
      readSize? text = some (width, height)
  | leftLower, text | rightUpper, text | point, text => ∃ re im,
    Numeral.pair? Numeral.float? ',' text = some (re, im) ∧ Point.read? text = some ⟨re, im⟩
  | iterations, text => ∃ n : Nat, Numeral.integer32? text = some (n : Int) ∧ 1 ≤ n ∧ n ≤ 1000000 ∧
    Numeral.naturalBelow? UInt64.size text = some n
  | trap, text => ∃ choice ∈ trapRules, choice.1.toList = text ∧
    StopRule.named? text = some choice.2
  | radius, text | gradient, text | thickness, text => ∃ x : Float,
    Numeral.float? text = some x ∧ x.isFinite ∧ 0 < x
  | _, _ => True

variable {o : Opt} {text : Text} {complaint notNumber notPositive : String}

theorem exists_pair_of_pointComplaint? (h : pointComplaint? complaint text = none) :
    ∃ re im, Numeral.pair? Numeral.float? ',' text = some (re, im) ∧
      Point.read? text = some ⟨re, im⟩ := by
  obtain ⟨z, hz⟩ := Arguments.exists_point_of_complaint? h
  obtain ⟨⟨re, im⟩, hpair, rfl⟩ := Option.map_eq_some_iff.1 hz
  exact ⟨re, im, hpair, hz⟩

theorem exists_number_of_positiveComplaint?
    (h : positiveComplaint? notNumber notPositive text = none) :
    ∃ x : Float, Numeral.float? text = some x ∧ x.isFinite ∧ 0 < x := by
  unfold positiveComplaint? at h
  split at h
  · next x hx =>
    split at h
    · next hpositive =>
      rw [Bool.and_eq_true, decide_eq_true_iff] at hpositive
      exact ⟨x, hx, hpositive⟩
    · cases h
  · cases h

theorem exists_count_of_iterationsComplaint? (h : iterationsComplaint? text = none) :
    ∃ n : Nat, Numeral.integer32? text = some (n : Int) ∧ 1 ≤ n ∧ n ≤ 1000000 ∧
      Numeral.naturalBelow? UInt64.size text = some n := by
  unfold iterationsComplaint? at h
  split at h
  · next k hk =>
    split at h
    · next hrange =>
      have hnat : (k.toNat : Int) = k := by omega
      refine ⟨k.toNat, by rw [hnat, hk], by omega, by omega, ?_⟩
      exact Numeral.naturalBelow?_of_integer32? hk (by omega)
    · cases h
  · cases h

theorem exists_rule_of_mem_trapNames (h : String.ofList text ∈ trapNames) :
    ∃ choice ∈ trapRules, choice.1.toList = text ∧ StopRule.named? text = some choice.2 := by
  have hnamed : ∀ name ∈ trapNames, ∃ choice ∈ trapRules, choice.1 = name ∧
      StopRule.named? name.toList = some choice.2 := by decide +kernel
  obtain ⟨choice, hmem, hname, hrule⟩ := hnamed _ h
  rw [String.toList_ofList] at hrule
  exact ⟨choice, hmem, by rw [hname, String.toList_ofList], hrule⟩

theorem settles_of_checkValue (h : Arguments.checkValue o text = .ok ()) : o.Settles text := by
  obtain ⟨hname, hcomplaint⟩ := Arguments.of_checkValue h
  cases o with
  | size =>
    obtain ⟨width, height, hsize⟩ := Arguments.exists_size_of_complaint? hcomplaint
    exact ⟨width, height, hsize, hsize⟩
  | leftLower | rightUpper | point => exact exists_pair_of_pointComplaint? hcomplaint
  | iterations => exact exists_count_of_iterationsComplaint? hcomplaint
  | trap => exact exists_rule_of_mem_trapNames (hname rfl)
  | radius | gradient | thickness => exact exists_number_of_positiveComplaint? hcomplaint
  | output | formula | fractal | julia | invertReal | invertImag => trivial

end Opt

/-! ## Options that are given -/

namespace Event

variable {o : Opt} {text argument : Text} {waiting waiting' : Option Opt} {arguments : List Text}
  {events : List Event}

/-- Every value comes with its option, and so does the option that still waits for one. -/
structure Announced (events : List Event) (waiting : Option Opt) : Prop where
  value : ∀ o text, Event.value o text ∈ events → option o ∈ events
  waiting : ∀ o, waiting = some o → option o ∈ events

theorem announced_option : Announced [option o] (some o) where
  value := by simp
  waiting := by simp

theorem announced_attached : Announced (attached o text) none where
  value := by simp [attached]
  waiting := by simp

theorem announced_ofLetters (h : ofLetters text = .ok (events, waiting)) :
    Announced events waiting := by
  induction text generalizing events with
  | nil =>
    cases h
    exact ⟨nofun, nofun⟩
  | cons c rest ih =>
    rw [ofLetters] at h
    split at h
    · next o ho =>
      split at h
      · obtain ⟨⟨events', waiting'⟩, hrest, heq⟩ := Except.bind_eq_ok_iff.1 h
        cases heq
        have hannounced := ih hrest
        refine ⟨fun o text hvalue ↦ List.mem_cons_of_mem _ (hannounced.value o text ?_),
          fun o ho ↦ List.mem_cons_of_mem _ (hannounced.waiting o ho)⟩
        simpa using hvalue
      · split at h
        · cases h
          exact announced_option
        · cases h
          exact announced_attached
    · split at h
      · cases h
      · split at h
        · cases h
        · cases h

theorem announced_ofName (h : ofName argument = .ok (events, waiting)) :
    Announced events waiting := by
  have hname {name : Text} (h : (if name = "version".toList then .error .version
      else if name = "help".toList then .error .help
      else .error (.unexpected ('-' :: '-' :: name)) : Except Stop (List Event × Option Opt)) =
        .ok (events, waiting)) : False := by
    split at h
    · cases h
    · split at h
      · cases h
      · cases h
  unfold ofName at h
  dsimp only at h
  generalize Text.cut '=' (argument.dropWhile (· = '-')) = cut? at h
  rcases cut? with _ | ⟨name, given⟩
  · split at h
    · split at h
      · cases h
        exact ⟨by simp, by simp⟩
      · cases h
        exact announced_option
    · exact absurd h hname
  · split at h
    · split at h
      · cases h
        exact ⟨by simp, by simp⟩
      · cases h
        exact announced_attached
    · exact absurd h hname

/-- An option is given with its value, unless it was already waiting for one. -/
theorem option_mem_of_value_mem (h : ofArguments waiting arguments = .ok (events, waiting'))
    (hvalue : value o text ∈ events) : option o ∈ events ∨ waiting = some o := by
  induction arguments generalizing waiting events with
  | nil =>
    cases h
    cases hvalue
  | cons argument rest ih =>
    -- What one argument says, and then what the rest says.
    have hstep {first rest' : List Event} {between : Option Opt} (hfirst : Announced first between)
        (hrest : ofArguments between rest = .ok (rest', waiting'))
        (hmem : value o text ∈ first ++ rest') : option o ∈ first ++ rest' := by
      rw [List.mem_append] at hmem ⊢
      obtain hmem | hmem := hmem
      · exact .inl (hfirst.value o text hmem)
      · obtain hmem | hbetween := ih hrest hmem
        · exact .inr hmem
        · exact .inl (hfirst.waiting o hbetween)
    rw [ofArguments.eq_def] at h
    dsimp only at h
    split at h
    · next o' hwaiting =>
      obtain ⟨⟨events', last⟩, hrest, heq⟩ := Except.bind_eq_ok_iff.1 h
      cases heq
      obtain hmem | hmem := List.mem_cons.1 hvalue
      · cases hmem
        exact .inr (Option.filter_eq_some_iff.1 hwaiting).1
      · obtain hmem | hnone := ih hrest hmem
        · exact .inl (List.mem_cons_of_mem _ hmem)
        · cases hnone
    · split at h
      · split at h
        · cases h
          cases hvalue
        · cases h
      · obtain ⟨⟨first, between⟩, hfirst, h⟩ := Except.bind_eq_ok_iff.1 h
        obtain ⟨⟨rest', last⟩, hrest, heq⟩ := Except.bind_eq_ok_iff.1 h
        cases heq
        exact .inl (hstep (announced_ofName hfirst) hrest hvalue)
      · obtain ⟨⟨first, between⟩, hfirst, h⟩ := Except.bind_eq_ok_iff.1 h
        obtain ⟨⟨rest', last⟩, hrest, heq⟩ := Except.bind_eq_ok_iff.1 h
        cases heq
        exact .inl (hstep (announced_ofLetters hfirst) hrest hvalue)
      · cases h

end Event

namespace Arguments

variable {arguments : List Text} {a : Arguments} {o : Opt} {text : Text}

/-- An option without a default has a value exactly if it is given. -/
theorem isSome_value?_iff (h : Arguments.read arguments = .ok a) (htakes : o.takesValue)
    (hdefault : o.default? = none) : (a.value? o).isSome ↔ a.has o := by
  constructor
  · intro hsome
    obtain ⟨text, hv⟩ := Option.isSome_iff_exists.1 hsome
    obtain ⟨⟨events, waiting⟩, hevents, h⟩ := Except.bind_eq_ok_iff.1 h
    obtain ⟨_, -, ha⟩ := Except.bind_eq_ok_iff.1 h
    cases ha
    have hmem : text ∈ Arguments.values ⟨events⟩ o := List.mem_of_mem_head? hv
    have hgiven : Event.value o text ∈ events := by
      unfold values at hmem
      rw [hdefault] at hmem
      split at hmem
      · cases hmem
      · obtain ⟨e, he, hvalue⟩ := List.mem_filterMap.1 hmem
        cases e with
        | option o' => cases hvalue
        | value o' text' =>
          simp only [Option.ite_none_right_eq_some, Option.some.injEq] at hvalue
          obtain ⟨rfl, rfl⟩ := hvalue
          exact he
    have hoption : Event.option o ∈ events := by
      obtain hoption | hnone := Event.option_mem_of_value_mem hevents hgiven
      · exact hoption
      · cases hnone
    unfold has occurrences
    rw [decide_eq_true_iff, List.countP_pos_iff]
    exact ⟨_, hoption, decide_eq_true rfl⟩
  · intro hgiven
    obtain ⟨text, hv⟩ := exists_value?_of_has h htakes hgiven
    rw [hv, Option.isSome_some]

/-- A measure of a stopping rule: the number that is given for it, which is positive, or the usual
one if none is given. -/
def Measures (a : Arguments) (o : Opt) (usual x : Float) : Prop :=
  if a.has o then
    ∃ text, a.value? o = some text ∧ Numeral.float? text = some x ∧ x.isFinite ∧ 0 < x
  else x = usual

/-- A stopping rule with the measures that are given in place of its usual ones. -/
inductive Tunes (a : Arguments) : StopRule → StopRule → Prop
  | escape : Tunes a .escape .escape
  | circle {radius gradient radius' gradient' : Float} :
    a.Measures .radius radius radius' → a.Measures .gradient gradient gradient' →
      Tunes a (.circle radius gradient) (.circle radius' gradient')
  | axes {thickness thickness' : Float} :
    a.Measures .thickness thickness thickness' → Tunes a (.axes thickness) (.axes thickness')
  | diagonals {thickness thickness' : Float} :
    a.Measures .thickness thickness thickness' →
      Tunes a (.diagonals thickness) (.diagonals thickness')

/-- Orbits are followed as the arguments ask for: up to the number of iterations that is given or
usual, by the stopping rule with the given name and measures, and with the given point selected, or
none if no point is given. -/
structure Sets (a : Arguments) (s : Settings) : Prop where
  cap : ∃ text, ∃ n : Nat, a.value? .iterations = some text ∧
    Numeral.integer32? text = some (n : Int) ∧ 1 ≤ n ∧ n ≤ 1000000 ∧ s.cap.toNat = n
  rule : ∃ text, ∃ choice ∈ Opt.trapRules, a.value? .trap = some text ∧ choice.1.toList = text ∧
    a.Tunes choice.2 s.rule
  selected : if a.has .point then
      ∃ text z, a.value? .point = some text ∧ Point.read? text = some z ∧ s.selected = some z
    else a.value? .point = none ∧ s.selected = none

/-! ## The settings of a session -/

theorem measures_getD (h : Arguments.read arguments = .ok a)
    (ho : o = .radius ∨ o = .gradient ∨ o = .thickness) (usual : Float) :
    a.Measures o usual ((a.float? o).getD usual) := by
  have hiff : (a.value? o).isSome ↔ a.has o := by
    apply isSome_value?_iff h
    · rcases ho with rfl | rfl | rfl <;> rfl
    · rcases ho with rfl | rfl | rfl <;> rfl
  unfold Measures
  split
  · next hgiven =>
    obtain ⟨text, hv⟩ := Option.isSome_iff_exists.1 (hiff.2 hgiven)
    obtain ⟨x, hx, hpositive⟩ : ∃ x : Float, Numeral.float? text = some x ∧ x.isFinite ∧ 0 < x := by
      have hsettles := Opt.settles_of_checkValue (checkValue_of_read h hv)
      rcases ho with rfl | rfl | rfl
      · exact hsettles
      · exact hsettles
      · exact hsettles
    refine ⟨text, hv, ?_, ?_⟩
    · rw [float?, hv, Option.bind_some, hx, Option.getD_some]
    · rw [float?, hv, Option.bind_some, hx, Option.getD_some]
      exact hpositive
  · next hnot =>
    have hnone : a.value? o = none := by
      rwa [← hiff, Option.not_isSome_iff_eq_none] at hnot
    rw [float?, hnone, Option.bind_none, Option.getD_none]

theorem tunes_rule (h : Arguments.read arguments = .ok a) :
    ∃ text, ∃ choice ∈ Opt.trapRules, a.value? .trap = some text ∧ choice.1.toList = text ∧
      a.Tunes choice.2 a.rule := by
  obtain ⟨text, hv⟩ := a.exists_value? (o := .trap) rfl
  obtain ⟨choice, hmem, hname, hrule⟩ := Opt.settles_of_checkValue (checkValue_of_read h hv)
  refine ⟨text, choice, hmem, hv, hname, ?_⟩
  unfold rule
  rw [hv, Option.bind_some, hrule, Option.getD_some]
  cases choice.2 with
  | escape => exact .escape
  | circle radius gradient =>
    exact .circle (measures_getD h (.inl rfl) _) (measures_getD h (.inr (.inl rfl)) _)
  | axes thickness => exact .axes (measures_getD h (.inr (.inr rfl)) _)
  | diagonals thickness => exact .diagonals (measures_getD h (.inr (.inr rfl)) _)

theorem cap_of_read (h : Arguments.read arguments = .ok a) :
    ∃ text, ∃ n : Nat, a.value? .iterations = some text ∧
      Numeral.integer32? text = some (n : Int) ∧ 1 ≤ n ∧ n ≤ 1000000 ∧
      a.settings.cap.toNat = n := by
  obtain ⟨text, hv⟩ := a.exists_value? (o := .iterations) rfl
  obtain ⟨n, hinteger, hpos, hle, hnatural⟩ := Opt.settles_of_checkValue (checkValue_of_read h hv)
  refine ⟨text, n, hv, hinteger, hpos, hle, ?_⟩
  unfold settings
  rw [hv, Option.bind_some, hnatural, Option.getD_some]
  exact Nat.mod_eq_of_lt (Nat.lt_of_le_of_lt hle (by decide))

theorem selected_of_has (h : Arguments.read arguments = .ok a) (hgiven : a.has .point) :
    ∃ text z, a.value? .point = some text ∧ Point.read? text = some z ∧
      a.settings.selected = some z := by
  obtain ⟨text, hv⟩ := Option.isSome_iff_exists.1 ((isSome_value?_iff h rfl rfl).2 hgiven)
  obtain ⟨re, im, -, hz⟩ := Opt.settles_of_checkValue (checkValue_of_read h hv)
  exact ⟨text, ⟨re, im⟩, hv, hz, by rw [settings, hv, Option.bind_some, hz]⟩

theorem selected_of_not_has (h : Arguments.read arguments = .ok a) (hnot : ¬a.has .point) :
    a.value? .point = none ∧ a.settings.selected = none := by
  have hnone : a.value? .point = none := by
    rwa [← isSome_value?_iff h rfl rfl, Option.not_isSome_iff_eq_none] at hnot
  exact ⟨hnone, by rw [settings, hnone, Option.bind_none]⟩

theorem sets_settings (h : Arguments.read arguments = .ok a) : a.Sets a.settings where
  cap := cap_of_read h
  rule := tunes_rule h
  selected := by
    split
    · next hgiven => exact selected_of_has h hgiven
    · next hnot => exact selected_of_not_has h hnot

/-! ## One thing only -/

theorem Measures.unique {usual x y : Float} (hx : a.Measures o usual x)
    (hy : a.Measures o usual y) : x = y := by
  by_cases hgiven : a.has o
  · obtain ⟨text, hv, hx, -⟩ := (if_pos hgiven).mp hx
    obtain ⟨text', hv', hy, -⟩ := (if_pos hgiven).mp hy
    cases hv.symm.trans hv'
    exact Option.some.inj (hx.symm.trans hy)
  · exact ((if_neg hgiven).mp hx).trans ((if_neg hgiven).mp hy).symm

theorem Tunes.unique {rule rule₁ rule₂ : StopRule} (h₁ : a.Tunes rule rule₁)
    (h₂ : a.Tunes rule rule₂) : rule₁ = rule₂ := by
  cases h₁ with
  | escape =>
    cases h₂
    rfl
  | circle hradius hgradient =>
    obtain _ | ⟨hradius', hgradient'⟩ := h₂
    rw [hradius.unique hradius', hgradient.unique hgradient']
  | axes hthickness =>
    obtain _ | _ | hthickness' := h₂
    rw [hthickness.unique hthickness']
  | diagonals hthickness =>
    obtain _ | _ | _ | hthickness' := h₂
    rw [hthickness.unique hthickness']

section

variable {s s' : Settings} (h : a.Sets s) (h' : a.Sets s')

include h h'

theorem Sets.cap_unique : s.cap = s'.cap := by
  obtain ⟨text, n, hv, hn, -, -, hcap⟩ := h.cap
  obtain ⟨text', n', hv', hn', -, -, hcap'⟩ := h'.cap
  cases hv.symm.trans hv'
  have hsame : n = n' := Int.ofNat.inj (Option.some.inj (hn.symm.trans hn'))
  rw [← UInt64.toNat_inj, hcap, hcap', hsame]

theorem Sets.rule_unique : s.rule = s'.rule := by
  obtain ⟨text, choice, hmem, hv, hname, htunes⟩ := h.rule
  obtain ⟨text', choice', hmem', hv', hname', htunes'⟩ := h'.rule
  cases hv.symm.trans hv'
  -- different rules have different names
  have hinj : ∀ choice ∈ Opt.trapRules, ∀ choice' ∈ Opt.trapRules,
      choice.1.toList = choice'.1.toList → choice = choice' := by decide
  obtain rfl := hinj choice hmem choice' hmem' (hname.trans hname'.symm)
  exact htunes.unique htunes'

theorem Sets.selected_unique : s.selected = s'.selected := by
  by_cases hgiven : a.has .point
  · obtain ⟨text, z, hv, hz, hselected⟩ := (if_pos hgiven).mp h.selected
    obtain ⟨text', z', hv', hz', hselected'⟩ := (if_pos hgiven).mp h'.selected
    cases hv.symm.trans hv'
    rw [hselected, hselected', ← hz, hz']
  · obtain ⟨-, hselected⟩ := (if_neg hgiven).mp h.selected
    obtain ⟨-, hselected'⟩ := (if_neg hgiven).mp h'.selected
    rw [hselected, hselected']

/-- Arguments ask for one way of following orbits only. -/
theorem Sets.unique : s = s' := by
  have hcap := h.cap_unique h'
  have hselected := h.selected_unique h'
  have hrule := h.rule_unique h'
  cases s
  cases s'
  congr

end

end Arguments

end OrbitPlot
