import OrbitPlot.Proofs.Formula.Source
import OrbitPlot.Proofs.Program.Reads
import OrbitPlot.Proofs.Recurrence.Reading
import OrbitPlot.Proofs.Recurrence.Trial

/-!
# The variables of a term

A program that was made of a term reads the variables that occur in the term. This is not so plain
where brackets are concerned: the program of a bracket need not be its own. It may have been put
into its slot by another term, maybe by one with other rights, and it is found there by its source.
But a bracket can be told from its source, slots apart, so the same variables occur in both.

## Main statements

* `Pool.Reaches.legible`: what programs there are in a pool, whatever has been attempted.
* `Expr.Placed.reads_iff`: a program reads the variables that occur in its expression.
* `reads_eq_false_of_ofTokens`: a first term never reads another term.
-/

namespace OrbitPlot

open Machine

/-! ## Programs of brackets -/

theorem Constant.program_of_ofParts {pool : Pool} {whole : Text} {x y : Expr .real}
    {program : Program} (h : ofParts pool whole x y = .ok (.varying program)) :
    program = .bracket x y := by
  unfold ofParts at h
  split at h
  · cases h
    rfl
  · split at h <;> cases h

namespace Pool

variable {p q : Pool}

/-- Every program in the pool is that of a bracket whose parts have been read. -/
def Legible (pool : Pool) : Prop :=
  ∀ ⦃slot program⦄, pool.complexes.get? slot = some (.varying program) →
    ∃ left right x y, program = .bracket x y ∧ x.ReadsPart left ∧ y.ReadsPart right

theorem legible_empty : Legible {} := by
  intro slot program hslot
  rw [Slots.get?_empty] at hslot
  cases hslot

theorem Fills.legible (h : p.Fills q) (hp : p.Legible) : q.Legible := by
  cases h with
  | real h =>
    obtain ⟨reals, -, rfl⟩ := internReal_eq_ok_iff.1 h
    exact hp
  | complex hx hy _ _ hc h =>
    obtain ⟨complexes, hintern, rfl⟩ := internComplex_eq_ok_iff.1 h
    intro slot program hslot
    rcases Slots.get?_eq_or_of_intern hintern hslot with hold | hnew
    · exact hp hold
    · rw [← hnew] at hc
      exact ⟨_, _, _, _, Constant.program_of_ofParts hc, hx, hy⟩

theorem Leads.legible (h : p.Leads q) : p.Legible → q.Legible := h.preserves Fills.legible

theorem Reaches.legible (h : Reaches {} p) : p.Legible := h.leads.legible legible_empty

end Pool

/-- What there is to be in the slot of a bracket: a point if no variable occurs in the bracket, or
else the program of a bracket that is the same, slots apart. -/
inductive Constant.StandsFor (x y : Expr .real) : Constant → Prop
  /-- A point stands for a bracket that is the same everywhere. -/
  | fixed {z : Point} (h : (x.varies || y.varies) = false) : StandsFor x y (.fixed z)
  /-- A program stands for a bracket if it was made of the same one. -/
  | varying {left right : Text} {x' y' : Expr .real} (hxr : x'.ReadsPart left)
    (hyr : y'.ReadsPart right) (hx : x'.unslotted = x.unslotted) (hy : y'.unslotted = y.unslotted) :
    StandsFor x y (.varying (.bracket x' y'))

theorem Pool.Legible.standsFor {pool p : Pool} (hpool : pool.Legible) {whole left right : Text}
    {x y : Expr .real} (hx : x.ReadsPart left) (hy : y.ReadsPart right) {c d : Constant}
    (hc : Constant.ofParts p whole x y = .ok c) {slot : Nat}
    (hslot : pool.complexes.get? slot = some d) (hd : d = c ∨ d.agrees c) : d.StandsFor x y := by
  unfold Constant.ofParts at hc
  by_cases hvaries : x.varies || y.varies
  · rw [if_pos hvaries] at hc
    cases hc
    rcases hd with rfl | hagrees
    · exact .varying hx hy rfl rfl
    · cases d with
      | fixed z => cases hagrees
      | varying program =>
        -- the two have one source, from which the parts can be told
        obtain ⟨left', right', x', y', rfl, hx', hy'⟩ := hpool hslot
        have hsource : Expr.bracketText x'.source y'.source = Expr.bracketText x.source y.source :=
          of_decide_eq_true hagrees
        obtain ⟨hxx, hyy⟩ := Expr.eq_of_bracketText_eq hx' hy' hx hy hsource
        exact .varying hx' hy' hxx hyy
  · rw [if_neg hvaries] at hc
    have hfixed := Bool.eq_false_iff.2 hvaries
    split at hc
    · cases hc
      cases d with
      | fixed w => exact .fixed hfixed
      | varying program =>
        rcases hd with heq | hagrees
        · cases heq
        · cases hagrees
    · cases hc

/-! ## Brackets in their slots -/

namespace Expr

variable {kind : Kind} {e : Expr kind} {p q : Pool} {v : Variable}

/-- Every bracket has a slot in which there is what stands for it. -/
def Placed (pool : Pool) (e : Expr kind) : Prop :=
  e.AllBrackets fun slot x y ↦ ∃ c, pool.complexes.get? slot = some c ∧ c.StandsFor x y

theorem Placed.mono (hpq : p.Extends q) (h : e.Placed p) : e.Placed q :=
  h.imp fun _ _ _ ⟨c, hc, hstands⟩ ↦ ⟨c, hpq.complexes hc, hstands⟩

theorem ReadsPart.allBrackets {text : Text} (h : e.ReadsPart text)
    (P : Nat → Expr .real → Expr .real → Prop) : e.AllBrackets P := by
  refine h.forall_expr (fun op e he ↦ allBrackets_unary.2 he) (fun op kind l r hl hr ↦ ⟨hl, hr⟩) ?_
  rintro kind word e (v | ⟨slot, -, -⟩) <;> trivial

theorem Interns.leads (h : e.Interns p q) (he : e.Legible) : p.Leads q := by
  induction e generalizing p q with
  | var w => rw [h]; exact .refl p
  | number slot value => exact .single (.real h)
  | bracket slot x y ihx ihy =>
    obtain ⟨p₁, p₂, whole, c, hx, hy, hc, hslot⟩ := h
    obtain ⟨⟨left, hxr⟩, right, hyr⟩ := he
    have hxs := hx.stored.mono hy.extends
    exact ((ihx hx (hxr.allBrackets _)).trans (ihy hy (hyr.allBrackets _))).trans
      (.single (.complex hxr hyr hxs hy.stored hc hslot))
  | abs e ih => exact ih h he
  | re e ih => exact ih h he
  | im e ih => exact ih h he
  | binary op left right ihl ihr =>
    obtain ⟨p₁, hl, hr⟩ := h
    exact (ihl hl he.1).trans (ihr hr he.2)

/-- When an expression has been interned, what is in the slots of its brackets stands for them, be
it new or from before. -/
theorem Interns.placed (h : e.Interns p q) (he : e.Legible) (hp : p.Legible) : e.Placed q := by
  induction e generalizing p q with
  | var w => trivial
  | number slot value => trivial
  | bracket slot x y ihx ihy =>
    have hq : q.Legible := (h.leads he).legible hp
    obtain ⟨p₁, p₂, whole, c, -, -, hc, hslot⟩ := h
    obtain ⟨⟨left, hxr⟩, right, hyr⟩ := he
    obtain ⟨complexes, hintern, rfl⟩ := Pool.internComplex_eq_ok_iff.1 hslot
    obtain ⟨d, hd, hagrees⟩ := Slots.get?_slot_of_intern hintern
    exact ⟨d, hd, hq.standsFor hxr hyr hc hd hagrees⟩
  | abs e ih => exact ih h he hp
  | re e ih => exact ih h he hp
  | im e ih => exact ih h he hp
  | binary op left right ihl ihr =>
    obtain ⟨p₁, hl, hr⟩ := h
    exact ⟨(ihl hl he.1 hp).mono hr.extends, ihr hr he.2 ((hl.leads he.1).legible hp)⟩

/-! ## What is read and what occurs -/

theorem mentions_unslotted : e.unslotted.Mentions v ↔ e.Mentions v := by
  induction e with
  | var w => rfl
  | number slot value => rfl
  | bracket slot x y ihx ihy => exact or_congr ihx ihy
  | abs e ih => exact ih
  | re e ih => exact ih
  | im e ih => exact ih
  | binary op left right ihl ihr => exact or_congr ihl ihr

theorem mentions_of_unslotted_eq {e' : Expr kind} (h : e'.unslotted = e.unslotted) :
    e'.Mentions v ↔ e.Mentions v := by
  rw [← mentions_unslotted, h, mentions_unslotted]

theorem varies_of_mentions (h : e.Mentions v) : e.varies := by
  induction e with
  | var w => rfl
  | number slot value => exact h.elim
  | bracket slot x y ihx ihy => exact Bool.or_eq_true_iff.2 (h.imp ihx ihy)
  | abs e ih => exact ih h
  | re e ih => exact ih h
  | im e ih => exact ih h
  | binary op left right ihl ihr => exact Bool.or_eq_true_iff.2 (h.imp ihl ihr)

/-- The code of an expression reads the variables that occur in the expression if this is so of the
slots of its brackets. -/
theorem any_reads_code {slotReads : Nat → Bool}
    (h : e.AllBrackets fun slot x y ↦ (slotReads slot ↔ x.Mentions v ∨ y.Mentions v)) :
    e.code.any (Instr.reads slotReads v) ↔ e.Mentions v := by
  -- an operator reads nothing itself
  have happend {code : List Instr} {i : Instr} (hi : i.reads slotReads v = false) :
      (code ++ [i]).any (Instr.reads slotReads v) = code.any (Instr.reads slotReads v) := by
    rw [List.any_append, List.any_cons, List.any_nil, hi, Bool.or_false, Bool.or_false]
  induction e with
  | var w =>
    rw [code, List.any_cons, List.any_nil, Bool.or_false, Instr.reads, decide_eq_true_iff]
    exact eq_comm
  | number slot value => exact iff_of_false Bool.false_ne_true id
  | bracket slot x y =>
    rw [code, List.any_cons, List.any_nil, Bool.or_false]
    exact h
  | abs e ih =>
    rw [code, happend rfl]
    exact ih h
  | re e ih =>
    rw [code, happend rfl]
    exact ih h
  | im e ih =>
    rw [code, happend rfl]
    exact ih h
  | binary op left right ihl ihr =>
    rw [code, happend rfl, List.any_append]
    exact Bool.or_eq_true_iff.trans (or_congr (ihl h.1) (ihr h.2))

end Expr

theorem Constant.StandsFor.slotReads_iff {pool : Pool} {x y : Expr .real} {c : Constant}
    (h : c.StandsFor x y) {slot depth : Nat} (hslot : pool.complexes.get? slot = some c)
    {v : Variable} : pool.slotReads v (depth + 1) slot ↔ x.Mentions v ∨ y.Mentions v := by
  cases h with
  | fixed hfixed =>
    obtain ⟨hx, hy⟩ := Bool.or_eq_false_iff.1 hfixed
    constructor
    · intro hreads
      obtain ⟨-, program, -, hprogram⟩ := Pool.exists_varying_of_slotReads hreads
      cases hslot.symm.trans hprogram
    · rintro (hv | hv)
      · exact absurd (Expr.varies_of_mentions hv) (Bool.eq_false_iff.1 hx)
      · exact absurd (Expr.varies_of_mentions hv) (Bool.eq_false_iff.1 hy)
  | @varying left right x' y' hxr hyr hx hy =>
    have hleft : x'.code.any (Instr.reads (pool.slotReads v depth) v) ↔ x.Mentions v :=
      (Expr.any_reads_code (hxr.allBrackets _)).trans (Expr.mentions_of_unslotted_eq hx)
    have hright : y'.code.any (Instr.reads (pool.slotReads v depth) v) ↔ y.Mentions v :=
      (Expr.any_reads_code (hyr.allBrackets _)).trans (Expr.mentions_of_unslotted_eq hy)
    rw [Pool.slotReads_varying hslot, ← Instr.any_reads_iff, ← hleft, ← hright, Program.bracket]
    simp [Instr.reads]

theorem Expr.Placed.reads_iff {pool : Pool} {e : Expr .complex} (h : e.Placed pool)
    {v : Variable} : e.program.reads pool v ↔ e.Mentions v := by
  refine Expr.any_reads_code (h.imp fun slot x y ⟨c, hslot, hstands⟩ ↦ ?_)
  obtain ⟨d, hd⟩ := Pool.exists_depth_eq_succ hslot
  rw [hd]
  exact hstands.slotReads_iff hslot

/-! ## Formulas -/

theorem Recurrence.reads_iff_of_read {raw : Text} {r : Recurrence} (h : read raw = .ok r) :
    ∃ first next, Token.splitTerms raw = .ok (first, next) ∧ 'f' ∉ first ∧ 'p' ∉ first ∧
      ∀ v : Variable, (r.first.reads r.pool v ↔ v.char ∈ first) ∧
        (r.next.reads r.pool v ↔ v.char ∈ next) := by
  obtain ⟨first, next, e₁, e₂, p, q, htext, hfirst, hnext, hf, hp, hreads₁, hreads₂, hintern₁,
    hintern₂, rfl⟩ := read_eq_ok_iff.1 h
  have hlegible : p.Legible := (hintern₁.leads hreads₁.legible).legible Pool.legible_empty
  have hplaced₁ : e₁.Placed q :=
    (hintern₁.placed hreads₁.legible Pool.legible_empty).mono hintern₂.extends
  have hplaced₂ : e₂.Placed q := hintern₂.placed hreads₂.legible hlegible
  refine ⟨first, next, Token.splitTerms_eq_ok_iff.2 ⟨htext, hfirst, hnext⟩, hf, hp, fun v ↦ ?_⟩
  exact ⟨hplaced₁.reads_iff.trans hreads₁.mentions_iff,
    hplaced₂.reads_iff.trans hreads₂.mentions_iff⟩

theorem Recurrence.knownAtStart_of_reads {raw : Text} {r : Recurrence} (h : read raw = .ok r)
    {v : Variable} (hv : r.first.reads r.pool v) : v.knownAtStart := by
  obtain ⟨first, next, -, hf, hp, hreads⟩ := reads_iff_of_read h
  have hmem := (hreads v).1.1 hv
  cases v with
  | current => rfl
  | selected => rfl
  | first => exact absurd hmem hf
  | previous => exact absurd hmem hp

/-! ## First terms -/

/-- What is known at the start of a sequence has the value there that it has when the terms that are
not there yet are taken to be zero. -/
theorem Bindings.lookup_atStart {v : Variable} (h : v.knownAtStart) (z : Point)
    (selected : Option Point) :
    (atStart z selected).lookup v = (later z selected .zero .zero).lookup v := by
  cases v with
  | current => rfl
  | selected => rfl
  | first => cases h
  | previous => cases h

/-- A program that reads nothing but what is known at the start of a sequence, and that has passed
its test, lacks nothing there but perhaps the selected point. -/
theorem Program.eq_selected_of_missing {pool : Pool} {program : Program}
    (hfits : program.fits pool) (hknown : ∀ v, program.reads pool v → v.knownAtStart)
    {z : Point} {selected : Option Point} {m m' : Machine} {v : Variable}
    (h : program.evaluate pool (.atStart z selected) m = .error (.missing v) m') :
    v = .selected := by
  rw [evaluate_congr fun v hv ↦ Bindings.lookup_atStart (hknown v hv) z selected] at h
  rcases evaluate_of_fits hfits (.later z selected .zero .zero) m with
    ⟨w, n, hrun⟩ | ⟨v', n, hnone, hrun⟩
  · cases hrun.symm.trans h
  · cases hrun.symm.trans h
    cases v with
    | selected => rfl
    | current => cases hnone
    | first => cases hnone
    | previous => cases hnone

/-- Whatever tokens a first term was made of, and whatever is attempted afterwards, its program
reads only what is known at the start of a sequence. -/
theorem Program.knownAtStart_of_ofTokens {p q r : Pool} {tokens : List Token} {program : Program}
    (hp : p.Legible) (h : ofTokens true tokens p = .ok program q) (hqr : q.Extends r)
    {v : Variable} (hv : program.reads r v) : v.knownAtStart := by
  obtain ⟨e, hintern, hlegible, hallowed, rfl⟩ := exists_legible_of_ofTokens h
  have hplaced : e.Placed r := (hintern.placed hlegible hp).mono hqr
  exact hallowed v (hplaced.reads_iff.1 hv) rfl

/-- **A first term never reads another term.** Whatever terms have been attempted with a pool, be
they first terms or others, and whatever tokens a first term is made of: its program reads neither
the term before nor the first term, not even through a constant that some other term has put into
the pool. So it stays, whatever is attempted afterwards. Hence wherever a sequence starts, the
program does not fail for want of one of these. -/
theorem reads_eq_false_of_ofTokens {p q r : Pool} (hp : Pool.Reaches {} p) {tokens : List Token}
    {program : Program} (h : Program.ofTokens true tokens p = .ok program q) (hqr : q.Reaches r) :
    program.reads r .previous = false ∧ program.reads r .first = false ∧
    ∀ (z : Point) (selected : Option Point) (m m' : Machine),
      program.evaluate r (.atStart z selected) m ≠ .error (.missing .previous) m' ∧
      program.evaluate r (.atStart z selected) m ≠ .error (.missing .first) m' := by
  have hknown (v : Variable) (hv : program.reads r v) : v.knownAtStart :=
    Program.knownAtStart_of_ofTokens hp.legible h hqr.leads.grows hv
  have hfits : program.fits r := by
    obtain ⟨e, hintern, hlegible, -, rfl⟩ := Program.exists_legible_of_ofTokens h
    exact ((Expr.Ready.of_interns hp.sound hlegible.shallow hintern).mono hqr.leads).fits
  refine ⟨?_, ?_, fun z selected m m' ↦ ⟨fun hfault ↦ ?_, fun hfault ↦ ?_⟩⟩
  · exact Bool.eq_false_iff.2 fun hv ↦ nomatch hknown .previous hv
  · exact Bool.eq_false_iff.2 fun hv ↦ nomatch hknown .first hv
  · cases Program.eq_selected_of_missing hfits hknown hfault
  · cases Program.eq_selected_of_missing hfits hknown hfault

/-- A bracket is shared with a next term that was made before; in its source there is the letter of
the first term, which belongs to a number. -/
theorem reads_eq_false_of_ofTokens_of_shared : ∃ program q,
    Program.ofTokens true [.bracketed "[rc,1e400]".toList]
        (Pool.after (Program.ofTokens false [.bracketed "[rc,1e999]".toList] {})) =
      .ok program q ∧ program.source = "[rc,inf]".toList ∧ q.complexes.size = 1 ∧
      program.reads (Pool.after (Program.ofTokens false [.bracketed "[rp,if]".toList] q)) .first =
        false := by
  have hmade : (match Program.ofTokens true [.bracketed "[rc,1e400]".toList]
        (Pool.after (Program.ofTokens false [.bracketed "[rc,1e999]".toList] {})) with
      | .ok program q => some (program.source, q.complexes.size)
      | .error _ _ => none) = some ("[rc,inf]".toList, 1) := by decide +kernel
  have hreaches : Pool.Reaches {}
      (Pool.after (Program.ofTokens false [.bracketed "[rc,1e999]".toList] {})) :=
    .attempt (.refl _) false _
  cases hterm : Program.ofTokens true [.bracketed "[rc,1e400]".toList]
      (Pool.after (Program.ofTokens false [.bracketed "[rc,1e999]".toList] {})) with
  | error e q => rw [hterm] at hmade; cases hmade
  | ok program q =>
    rw [hterm] at hmade
    obtain ⟨hsource, hsize⟩ := Prod.mk.inj (Option.some.inj hmade)
    exact ⟨program, q, rfl, hsource, hsize,
      (reads_eq_false_of_ofTokens hreaches hterm (.attempt (.refl q) false _)).2.1⟩

end OrbitPlot
