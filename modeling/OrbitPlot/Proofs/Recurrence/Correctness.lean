import OrbitPlot.Proofs.Recurrence.Reading

/-!
# What terms compute

The program of a term computes what the term says, and it does so on top of whatever the machine
holds. Both are shown for every pool that reading terms can reach, before and after the term was
read, so that neither failed attempts nor later terms matter.

## Main statements

* `means_of_read`: a program evaluates to the value of the text it was made of.
* `disciplined_of_read`: programs leave one point and touch nothing below it.
-/

namespace OrbitPlot

/-! ## Values -/

/-- A program means what a text says: the grammar reads an expression from the text whose code the
program has, and whichever such expression it is, evaluating the program gives its value, numbers
and brackets denoting what their slots yield, wherever the variables that the program reads have
values. -/
structure Program.Means (pool : Pool) (text : Text) (program : Program) : Prop where
  /-- The text can be read. -/
  readable : ∃ e : Expr .complex, e.Reads text ∧ program.code = e.code
  /-- The program computes what is read. -/
  computes : ∀ e : Expr .complex, e.Reads text → program.code = e.code →
    ∀ (b : Bindings) (m : Machine), (∀ v, program.reads pool v → (b.lookup v).isSome) →
      ∃ z m', e.yield pool b (pool.pointAt b) = some z ∧ program.evaluate pool b m = .ok z m'

namespace Expr

variable {pool : Pool}

theorem stored_iff {kind : Kind} {e : Expr kind} :
    e.Stored pool ↔ (∀ slot, .real slot ∈ e.code → (pool.reals.get? slot).isSome) ∧
      ∀ slot, .complex slot ∈ e.code → (pool.complexes.get? slot).isSome := by
  induction e with
  | var v => simp [Stored, code]
  | number slot value => simp [Stored, code]
  | bracket slot x y => simp [Stored, code]
  | abs e ih => simpa [Stored, code] using ih
  | re e ih => simpa [Stored, code] using ih
  | im e ih => simpa [Stored, code] using ih
  | binary op left right ihl ihr =>
    rw [Stored, ihl, ihr]
    simp only [code, List.mem_append, List.mem_singleton, reduceCtorEq, or_false]
    constructor
    · rintro ⟨⟨hl, hl'⟩, hr, hr'⟩
      exact ⟨fun slot h ↦ h.elim (hl slot) (hr slot), fun slot h ↦ h.elim (hl' slot) (hr' slot)⟩
    · rintro ⟨h, h'⟩
      exact ⟨⟨fun slot hs ↦ h slot (.inl hs), fun slot hs ↦ h' slot (.inl hs)⟩,
        fun slot hs ↦ h slot (.inr hs), fun slot hs ↦ h' slot (.inr hs)⟩

theorem bound_of_reads {b : Bindings} {program : Program}
    (hb : ∀ v, program.reads pool v → (b.lookup v).isSome) : ∀ i ∈ program.code, i.Bound pool b :=
  fun i hi v hv ↦ hb v (List.any_eq_true.2 ⟨i, hi, hv⟩)

theorem Ready.means {e : Expr .complex} (h : e.Ready pool) {text : Text} (hreads : e.Reads text) :
    e.program.Means pool text := by
  refine ⟨⟨e, hreads, rfl⟩, fun e' _ hcode b m hb ↦ ?_⟩
  have hstored : e'.Stored pool := by
    rw [stored_iff, ← hcode]
    exact stored_iff.1 h.stored
  have hbound : ∀ i ∈ e'.code, i.Bound pool b := hcode ▸ bound_of_reads hb
  obtain ⟨z, known, hz, hrun⟩ := run_program h.sound hstored hbound []
  have hsame : e.program.run pool b = e'.program.run pool b := by
    rw [Program.run, Program.run, hcode]
    rfl
  rw [← hsame] at hrun
  exact ⟨z, ⟨[], [], known⟩, hz, Program.evaluate_of_run (hrun [] []) m⟩

end Expr

/-- The programs of a recurrence mean what its terms say. So does every program that is made of a
scanned term, whatever was read with its pool before, successfully or not, and whatever is read
later. -/
theorem means_of_read :
    (∀ raw r, Recurrence.read raw = .ok r → ∃ first next,
      Token.splitTerms raw = .ok (first, next) ∧
        r.first.Means r.pool first ∧ r.next.Means r.pool next) ∧
    ∀ (p q q' : Pool) atStart text tokens program, Pool.Reaches {} p →
      Token.scan text = .ok tokens → Program.ofTokens atStart tokens p = .ok program q →
        q.Reaches q' → program.Means q' text := by
  constructor
  · intro raw r h
    obtain ⟨first, next, e₁, e₂, p, q, htext, hfirst, hnext, -, -, hreads₁, hreads₂, hintern₁,
      hintern₂, rfl⟩ := Recurrence.read_eq_ok_iff.1 h
    obtain ⟨hready₁, hready₂⟩ :=
      Expr.ready_of_interns hreads₁.shallow hreads₂.shallow hintern₁ hintern₂
    exact ⟨first, next, Token.splitTerms_eq_ok_iff.2 ⟨htext, hfirst, hnext⟩,
      hready₁.means hreads₁, hready₂.means hreads₂⟩
  · intro p q q' atStart text tokens program hp hscan h hq
    obtain ⟨e, hreads, hintern, -, rfl⟩ := (Program.ofTokens_eq_ok_iff hscan).1 h
    exact ((Expr.Ready.of_interns hp.sound hreads.shallow hintern).mono hq.leads).means hreads

/-- The second term makes a point of parts of two others and works with it. -/
theorem means_of_read_of_bracket : ∃ r,
    Recurrence.read "c;[rp,iu]*p+c".toList = .ok r ∧ r.first.Means r.pool ['c'] ∧
      r.next.Means r.pool "[rp,iu]*p+c".toList := by
  have hok : (Recurrence.read "c;[rp,iu]*p+c".toList).isOk := by decide +kernel
  cases hread : Recurrence.read "c;[rp,iu]*p+c".toList with
  | error e => rw [hread] at hok; cases hok
  | ok r =>
    obtain ⟨first, next, hsplit, hfirst, hnext⟩ := means_of_read.1 _ r hread
    have hterms : Token.splitTerms "c;[rp,iu]*p+c".toList = .ok (['c'], "[rp,iu]*p+c".toList) :=
      Token.splitTerms_eq_ok_iff.2 ⟨rfl, by decide, by decide⟩
    cases hterms.symm.trans hsplit
    exact ⟨r, rfl, hfirst, hnext⟩

/-! ## Stacks -/

/-- A program that leaves one point, and no real number, on whatever stacks it is run, and which
never takes anything from below: each of its first few instructions have left the same values on
top, however the stacks began. -/
structure Program.Disciplined (pool : Pool) (b : Bindings) (program : Program) : Prop where
  /-- What was on the stacks stays below what the first few instructions have left. -/
  above : ∀ known code, code <+: program.code → ∃ reals points known', ∀ rs ps,
    Instr.runAll (pool.slotValue b pool.depth) pool b code ⟨rs, ps, known⟩ =
      .ok () ⟨reals ++ rs, points ++ ps, known'⟩
  /-- In the end there is one more point. -/
  leaves : ∀ known, ∃ z known', ∀ rs ps,
    program.run pool b ⟨rs, ps, known⟩ = .ok () ⟨rs, z :: ps, known'⟩

theorem Program.disciplined_of_leaves {pool : Pool} {b : Bindings} {program : Program}
    (h : ∀ known, ∃ z known', ∀ rs ps,
      program.run pool b ⟨rs, ps, known⟩ = .ok () ⟨rs, z :: ps, known'⟩) :
    program.Disciplined pool b := by
  refine ⟨fun known code ⟨rest, hcode⟩ ↦ ?_, h⟩
  obtain ⟨z, known', hrun⟩ := h known
  have hempty := hrun [] []
  rw [run, ← hcode, Instr.runAll_append] at hempty
  obtain ⟨_, m, hprefix, -⟩ := EStateM.bind_eq_ok_iff.1 hempty
  -- from empty stacks there is nothing below to take, and the rest is the frame
  exact ⟨m.reals, m.points, m.known,
    Instr.framed_runAll pool b (pool.framed_slotValue b pool.depth) code hprefix⟩

theorem Expr.Ready.disciplined {pool : Pool} {e : Expr .complex} (h : e.Ready pool) {b : Bindings}
    (hb : ∀ v, (b.lookup v).isSome) : e.program.Disciplined pool b := by
  refine Program.disciplined_of_leaves fun known ↦ ?_
  obtain ⟨z, known', -, hrun⟩ :=
    run_program h.sound h.stored (fun i _ ↦ i.bound_of_forall hb) known
  exact ⟨z, known', hrun⟩

theorem Pool.Sound.disciplined {pool : Pool} (hsound : pool.Sound) {b : Bindings}
    (hb : ∀ v, (b.lookup v).isSome) {slot : Nat} {program : Program}
    (hslot : pool.complexes.get? slot = some (.varying program)) : program.Disciplined pool b := by
  obtain ⟨x, y, rfl, hx, hy, hxs, hys⟩ := hsound hslot
  refine Program.disciplined_of_leaves fun known ↦ ?_
  obtain ⟨re, im, -, -, hrun⟩ := Program.runAll_bracket (pool.pointGiven b known)
    (pool.slotValue b pool.depth) hx hy hxs hys fun i _ ↦ i.bound_of_forall hb
  obtain ⟨known', -, hrun⟩ := hrun known rfl
  exact ⟨⟨re, im⟩, known', hrun⟩

/-- Reading a formula never fails for the reason that a program does not leave one point. -/
theorem Recurrence.early_read (raw : Text) :
    FormulaError.FailsOnly FormulaError.IsEarly (Recurrence.read raw) := by
  refine ((Token.failsOnly_scanTerms raw).mono fun _ h ↦ h.isEarly).bind fun ⟨firsts, nexts⟩ ↦ ?_
  have hterms := Pool.proceeds_ofTerms (p := {}) firsts nexts
  cases hresult : Program.ofTerms firsts nexts {} with
  | error e q =>
    rw [hresult] at hterms
    simp only [hresult]
    exact FormulaError.failsOnly_error hterms.early
  | ok programs q =>
    obtain ⟨p, hfirst, hnext⟩ := Program.ofTerms_eq_ok_iff.1 hresult
    obtain ⟨e₁, e₂, hprogram₁, hprogram₂, hready₁, hready₂⟩ := ready_of_ofTokens hfirst hnext
    simp only [hresult, hprogram₁, hprogram₂, ofPrograms_of_ready hready₁ hready₂]
    exact FormulaError.failsOnly_ok _

/-- Every program that is made of tokens is disciplined wherever all variables have values, whatever
was read with its pool before, successfully or not, and whatever is read later; and so is every
program that a pool holds. Hence the test at the end of reading a formula is always passed, and
working out a bracket never fails. -/
theorem disciplined_of_read :
    (∀ (p q q' : Pool) atStart tokens program b, Pool.Reaches {} p →
      Program.ofTokens atStart tokens p = .ok program q → q.Reaches q' →
        (∀ v, (b.lookup v).isSome) → program.Disciplined q' b) ∧
    (∀ (p : Pool) slot program b, Pool.Reaches {} p →
      p.complexes.get? slot = some (.varying program) → (∀ v, (b.lookup v).isSome) →
        program.Disciplined p b) ∧
    (∀ raw, Recurrence.read raw ≠ .error .firstUnfit ∧ Recurrence.read raw ≠ .error .nextUnfit) ∧
    ∀ (p p₁ p₂ : Pool) atStart (whole left right : Text) x y,
      whole.unbracketed.splitOn ',' = [left, right] →
      Expr.readPart (Expr.readBracket atStart 0) atStart whole left p = .ok x p₁ →
      Expr.readPart (Expr.readBracket atStart 0) atStart whole right p₁ = .ok y p₂ →
        ∃ z, (Program.bracket x y).value p₂ .zero = .ok z := by
  refine ⟨?_, ?_, fun raw ↦ ?_, ?_⟩
  · intro p q q' atStart tokens program b hp h hq hb
    obtain ⟨e, hintern, hshallow, -, rfl⟩ := Program.exists_expr_of_ofTokens h
    exact ((Expr.Ready.of_interns hp.sound hshallow hintern).mono hq.leads).disciplined hb
  · intro p slot program b hp hslot hb
    exact hp.sound.disciplined hb hslot
  · have hearly := Recurrence.early_read raw
    exact ⟨fun h ↦ hearly _ h, fun h ↦ hearly _ h⟩
  · intro p p₁ p₂ atStart whole left right x y hsplit hx hy
    have hnone : ∀ text p e q, Expr.readBracket atStart 0 text p ≠ .ok e q := by
      rintro text p e q ⟨⟩
    obtain ⟨-, hl, hr⟩ := Text.splitOn_eq_pair_iff.1 hsplit
    obtain ⟨hreadx, hinternx, -⟩ := (Expr.readPart_eq_ok_iff hnone hl).1 hx
    obtain ⟨hready, hinterny, -⟩ := (Expr.readPart_eq_ok_iff hnone hr).1 hy
    obtain ⟨re, im, -, -, hvalue⟩ := Program.value_bracket (b := .zero) hreadx.flat hready.flat
      (hinternx.stored.mono hinterny.extends) hinterny.stored
      fun i _ ↦ i.bound_of_forall Bindings.isSome_lookup_zero
    exact ⟨⟨re, im⟩, hvalue⟩

/-- After a term has failed in the second part of a bracket, when the number of the first part was
interned already, another one multiplies a bracket by a variable and adds a second one. -/
theorem disciplined_of_read_of_failing : ∃ (e : FormulaError) (p q : Pool) (tokens : List Token)
    (program constant : Program) (b : Bindings),
    Program.ofTokens false [.bracketed "[2,rc+]".toList] {} = .error e p ∧
      (p.reals.size, q.reals.size) = (1, 2) ∧
      Token.scan "[arp,3]*c+u".toList = .ok tokens ∧
      Program.ofTokens false tokens p = .ok program q ∧
      q.complexes.get? 0 = some (.varying constant) ∧
      b = .later ⟨1, -2⟩ (some ⟨3, 4⟩) ⟨-5, 6⟩ ⟨7, 8⟩ ∧
      program.Disciplined q b ∧ constant.Disciplined q b := by
  let tokens : List Token :=
    [.bracketed "[arp,3]".toList, .binary .mul, .var .current, .binary .add, .var .selected]
  let b : Bindings := .later ⟨1, -2⟩ (some ⟨3, 4⟩) ⟨-5, 6⟩ ⟨7, 8⟩
  have hb (v : Variable) : (b.lookup v).isSome := by cases v <;> rfl
  have hmade : (match Program.ofTokens false [.bracketed "[2,rc+]".toList] {} with
      | .ok _ _ => none
      | .error _ p => some p).bind (fun p ↦ match Program.ofTokens false tokens p with
      | .ok _ q => some (p.reals.size, q.reals.size, q.slotReads .previous 1 0)
      | .error _ _ => none) = some (1, 2, true) := by decide +kernel
  rcases hfailed : Program.ofTokens false [.bracketed "[2,rc+]".toList] {} with ⟨_, p⟩ | ⟨e, p⟩
  · rw [hfailed] at hmade
    cases hmade
  have hp : Pool.Reaches {} p := by
    have hattempt := Pool.Reaches.attempt (.refl {}) false [.bracketed "[2,rc+]".toList]
    rwa [hfailed] at hattempt
  rw [hfailed] at hmade
  dsimp only [Option.bind_some] at hmade
  rcases hterm : Program.ofTokens false tokens p with ⟨program, q⟩ | ⟨_, q⟩
  · rw [hterm] at hmade
    obtain ⟨hsizes, hreads⟩ := Prod.mk.inj (Option.some.inj hmade)
    obtain ⟨hsize, hreads⟩ := Prod.mk.inj hreads
    have hq : Pool.Reaches {} q := by
      have hattempt := Pool.Reaches.attempt hp false tokens
      rwa [hterm] at hattempt
    -- a slot that reads a variable holds a program
    obtain ⟨constant, hslot⟩ : ∃ constant, q.complexes.get? 0 = some (.varying constant) := by
      rcases hslot : q.complexes.get? 0 with _ | z | constant
      · simp [Pool.slotReads, hslot] at hreads
      · simp [Pool.slotReads, hslot] at hreads
      · exact ⟨constant, rfl⟩
    refine ⟨e, p, q, tokens, program, constant, b, rfl, Prod.ext hsizes hsize, ?_, hterm, hslot,
      rfl, ?_, ?_⟩
    · decide +kernel
    · exact disciplined_of_read.1 p q q false tokens program b hp hterm (.refl q) hb
    · exact disciplined_of_read.2.1 q 0 constant b hq hslot hb
  · rw [hterm] at hmade
    cases hmade

end OrbitPlot
