import OrbitPlot.Proofs.Program.Execution
import OrbitPlot.Proofs.Recurrence.Reached

/-!
# Recurrences are read by the grammar

The final test of a recurrence, in which both programs are tried out, cannot fail, because a program
that was made of an expression leaves one point. So a text is a recurrence as soon as both of its
terms can be read and their constants fit into a pool.

## Main statement

`Recurrence.read_eq_ok_iff`: which texts are recurrences, and which recurrences they are.
-/

namespace OrbitPlot

/-! ## What an expression needs from its pool -/

/-- An expression can be run: its pool is sound and has all that the expression names. -/
structure Expr.Ready (pool : Pool) (e : Expr .complex) : Prop where
  /-- The programs in the pool are those of brackets. -/
  sound : pool.Sound
  /-- The slots of the expression are in use. -/
  stored : e.Stored pool

namespace Expr.Ready

variable {p q : Pool} {b : Bindings} {e : Expr .complex}

theorem mono (hpq : p.Leads q) (h : e.Ready p) : e.Ready q :=
  ⟨hpq.sound h.sound, h.stored.mono hpq.grows⟩

theorem of_interns (hp : p.Sound) (he : e.Shallow) (h : e.Interns p q) : e.Ready q :=
  ⟨h.sound he hp, h.stored⟩

end Expr.Ready

theorem Expr.ready_of_interns {e₁ e₂ : Expr .complex} {p q : Pool} (h₁ : e₁.Shallow)
    (h₂ : e₂.Shallow) (hintern₁ : e₁.Interns {} p) (hintern₂ : e₂.Interns p q) :
    e₁.Ready q ∧ e₂.Ready q := by
  have hready := Expr.Ready.of_interns Pool.sound_empty h₁ hintern₁
  have hready₂ := Expr.Ready.of_interns hready.sound h₂ hintern₂
  exact ⟨⟨hready₂.sound, hready.stored.mono hintern₂.extends⟩, hready₂⟩

theorem Instr.bound_of_forall {pool : Pool} {b : Bindings} (hb : ∀ v, (b.lookup v).isSome)
    (i : Instr) : i.Bound pool b := fun v _ ↦ hb v

theorem Bindings.isSome_lookup_zero (v : Variable) : (Bindings.zero.lookup v).isSome := by
  cases v <;> rfl

theorem Expr.Ready.fits {pool : Pool} {e : Expr .complex} (h : e.Ready pool) :
    e.program.fits pool := by
  obtain ⟨z, known, -, hrun⟩ := Expr.run_program (b := .zero) h.sound h.stored
    (fun i _ ↦ i.bound_of_forall Bindings.isSome_lookup_zero) []
  have hrun : e.program.run pool .zero {} = .ok () ⟨[], [z], known⟩ := hrun [] []
  rw [Program.fits, Program.test, hrun]
  rfl

/-! ## Terms -/

theorem Token.findSome?_notYetDefined?_eq_none_iff {text : Text} :
    text.findSome? notYetDefined? = none ↔ 'f' ∉ text ∧ 'p' ∉ text := by
  rw [List.findSome?_eq_none_iff]
  constructor
  · intro h
    refine ⟨fun hf ↦ ?_, fun hp ↦ ?_⟩
    · cases h 'f' hf
    · cases h 'p' hp
  · rintro ⟨hf, hp⟩ c hc
    refine Option.filter_eq_none_iff.2 fun v hv ↦ ?_
    rw [Variable.ofChar?_eq_some_iff] at hv
    subst hv
    cases v with
    | current => decide
    | selected => decide
    | first => exact absurd hc hf
    | previous => exact absurd hc hp

theorem Token.splitTerms_eq_ok_iff {text first next : Text} :
    splitTerms text = .ok (first, next) ↔
      text = first ++ ';' :: next ∧ ';' ∉ first ∧ ';' ∉ next := by
  rw [← Text.splitOn_eq_pair_iff, splitTerms]
  rcases text.splitOn ';' with _ | ⟨u, _ | ⟨v, _ | ⟨w, rest⟩⟩⟩
  · exact ⟨nofun, nofun⟩
  · exact ⟨nofun, nofun⟩
  · constructor <;> rintro ⟨⟩ <;> rfl
  · exact ⟨nofun, nofun⟩

theorem Token.scanTerms_eq_ok_iff {text : Text} {firsts nexts : List Token} :
    scanTerms text = .ok (firsts, nexts) ↔
      ∃ first next, text = first ++ ';' :: next ∧ ';' ∉ first ∧ ';' ∉ next ∧
        'f' ∉ first ∧ 'p' ∉ first ∧ scan first = .ok firsts ∧ scan next = .ok nexts := by
  rw [scanTerms, Except.bind_eq_ok_iff]
  constructor
  · rintro ⟨⟨first, next⟩, hsplit, h⟩
    obtain ⟨htext, hfirst, hnext⟩ := splitTerms_eq_ok_iff.1 hsplit
    cases hdefined : first.findSome? notYetDefined? with
    | some v => simp only [hdefined] at h; cases h
    | none =>
      simp only [hdefined] at h
      obtain ⟨hf, hp⟩ := findSome?_notYetDefined?_eq_none_iff.1 hdefined
      obtain ⟨tokens, hscan, h⟩ := Except.bind_eq_ok_iff.1 h
      obtain ⟨tokens', hscan', h⟩ := Except.bind_eq_ok_iff.1 h
      cases h
      exact ⟨first, next, htext, hfirst, hnext, hf, hp, hscan, hscan'⟩
  · rintro ⟨first, next, htext, hfirst, hnext, hf, hp, hscan, hscan'⟩
    refine ⟨(first, next), splitTerms_eq_ok_iff.2 ⟨htext, hfirst, hnext⟩, ?_⟩
    simp only [findSome?_notYetDefined?_eq_none_iff.2 ⟨hf, hp⟩]
    exact Except.bind_eq_ok_iff.2 ⟨firsts, hscan, Except.bind_eq_ok_iff.2 ⟨nexts, hscan', rfl⟩⟩

theorem Program.ofTerms_eq_ok_iff {first next : List Token} {program program' : Program}
    {p r : Pool} :
    Program.ofTerms first next p = .ok (program, program') r ↔
      ∃ q, Program.ofTokens true first p = .ok program q ∧
        Program.ofTokens false next q = .ok program' r := by
  constructor
  · intro h
    obtain ⟨_, q, hfirst, h⟩ := EStateM.bind_eq_ok_iff.1 h
    obtain ⟨_, _, hnext, h⟩ := EStateM.bind_eq_ok_iff.1 h
    cases h
    exact ⟨q, hfirst, hnext⟩
  · rintro ⟨q, hfirst, hnext⟩
    exact EStateM.bind_eq_ok_iff.2 ⟨_, q, hfirst, EStateM.bind_eq_ok_iff.2 ⟨_, r, hnext, rfl⟩⟩

theorem Expr.Reads.allowed {text : Text} {e : Expr .complex} (h : e.Reads text) {atStart : Bool}
    (hstart : atStart → 'f' ∉ text ∧ 'p' ∉ text) : e.Allowed atStart := by
  intro v hv hat
  have hmem : v.char ∈ text := h.mentions_iff.1 hv
  cases v with
  | current => rfl
  | selected => rfl
  | first => exact absurd hmem (hstart hat).1
  | previous => exact absurd hmem (hstart hat).2

namespace Recurrence

/-- The recurrence with two expressions for its terms, whose constants are in the pool. -/
def ofExprs (pool : Pool) (first next : Expr .complex) : Recurrence where
  first := first.program
  next := next.program
  pool := pool
  start? :=
    if first.program.isConstant pool then (first.program.value pool .zero).toOption else none

theorem ofPrograms_of_ready {pool : Pool} {first next : Expr .complex} (hfirst : first.Ready pool)
    (hnext : next.Ready pool) :
    ofPrograms pool first.program next.program = .ok (ofExprs pool first next) := by
  rw [ofPrograms, hfirst.fits, hnext.fits]
  rfl

theorem ready_of_ofTokens {first next : List Token} {program program' : Program} {p q : Pool}
    (hfirst : Program.ofTokens true first {} = .ok program p)
    (hnext : Program.ofTokens false next p = .ok program' q) :
    ∃ e₁ e₂ : Expr .complex, program = e₁.program ∧ program' = e₂.program ∧ e₁.Ready q ∧
      e₂.Ready q := by
  obtain ⟨e₁, hintern₁, hshallow₁, -, rfl⟩ := Program.exists_expr_of_ofTokens hfirst
  obtain ⟨e₂, hintern₂, hshallow₂, -, rfl⟩ := Program.exists_expr_of_ofTokens hnext
  exact ⟨e₁, e₂, rfl, rfl, Expr.ready_of_interns hshallow₁ hshallow₂ hintern₁ hintern₂⟩

/-- A text is a recurrence if and only if it is two terms, which the grammar reads, the first of
them without the letters of later values, and their constants can be interned. -/
theorem read_eq_ok_iff {raw : Text} {r : Recurrence} :
    read raw = .ok r ↔
      ∃ (first next : Text) (e₁ e₂ : Expr .complex) (p q : Pool),
        raw = first ++ ';' :: next ∧ ';' ∉ first ∧ ';' ∉ next ∧ 'f' ∉ first ∧ 'p' ∉ first ∧
        e₁.Reads first ∧ e₂.Reads next ∧ e₁.Interns {} p ∧ e₂.Interns p q ∧
        r = ofExprs q e₁ e₂ := by
  rw [read, Except.bind_eq_ok_iff]
  constructor
  · rintro ⟨⟨firsts, nexts⟩, hscan, h⟩
    obtain ⟨first, next, htext, hfirst, hnext, hf, hp, hscan₁, hscan₂⟩ :=
      Token.scanTerms_eq_ok_iff.1 hscan
    cases hterms : Program.ofTerms firsts nexts {} with
    | error e q => simp only [hterms] at h; cases h
    | ok programs q =>
      simp only [hterms] at h
      obtain ⟨p, hfirsts, hnexts⟩ := Program.ofTerms_eq_ok_iff.1 hterms
      obtain ⟨e₁, hreads₁, hintern₁, -, hprogram₁⟩ := (Program.ofTokens_eq_ok_iff hscan₁).1 hfirsts
      obtain ⟨e₂, hreads₂, hintern₂, -, hprogram₂⟩ := (Program.ofTokens_eq_ok_iff hscan₂).1 hnexts
      refine ⟨first, next, e₁, e₂, p, q, htext, hfirst, hnext, hf, hp, hreads₁, hreads₂, hintern₁,
        hintern₂, ?_⟩
      obtain ⟨hready₁, hready₂⟩ :=
        Expr.ready_of_interns hreads₁.shallow hreads₂.shallow hintern₁ hintern₂
      rw [hprogram₁, hprogram₂, ofPrograms_of_ready hready₁ hready₂] at h
      exact (Except.ok.inj h).symm
  · rintro ⟨first, next, e₁, e₂, p, q, htext, hfirst, hnext, hf, hp, hreads₁, hreads₂, hintern₁,
      hintern₂, rfl⟩
    obtain ⟨firsts, hscan₁⟩ := hreads₁.exists_scan
    obtain ⟨nexts, hscan₂⟩ := hreads₂.exists_scan
    refine ⟨(firsts, nexts), Token.scanTerms_eq_ok_iff.2
      ⟨first, next, htext, hfirst, hnext, hf, hp, hscan₁, hscan₂⟩, ?_⟩
    have hfirsts : Program.ofTokens true firsts {} = .ok e₁.program p :=
      (Program.ofTokens_eq_ok_iff hscan₁).2
        ⟨e₁, hreads₁, hintern₁, hreads₁.allowed fun _ ↦ ⟨hf, hp⟩, rfl⟩
    have hnexts : Program.ofTokens false nexts p = .ok e₂.program q :=
      (Program.ofTokens_eq_ok_iff hscan₂).2 ⟨e₂, hreads₂, hintern₂, hreads₂.allowed nofun, rfl⟩
    obtain ⟨hready₁, hready₂⟩ :=
      Expr.ready_of_interns hreads₁.shallow hreads₂.shallow hintern₁ hintern₂
    simp only [Program.ofTerms_eq_ok_iff.2 ⟨p, hfirsts, hnexts⟩]
    exact ofPrograms_of_ready hready₁ hready₂

theorem ready_of_read {raw : Text} {r : Recurrence} (h : read raw = .ok r) :
    ∃ e₁ e₂ : Expr .complex, e₁.Ready r.pool ∧ e₂.Ready r.pool ∧ r = ofExprs r.pool e₁ e₂ := by
  obtain ⟨_, _, e₁, e₂, p, q, -, -, -, -, -, hreads₁, hreads₂, hintern₁, hintern₂, rfl⟩ :=
    read_eq_ok_iff.1 h
  obtain ⟨hready₁, hready₂⟩ :=
    Expr.ready_of_interns hreads₁.shallow hreads₂.shallow hintern₁ hintern₂
  exact ⟨e₁, e₂, hready₁, hready₂, rfl⟩

end Recurrence

end OrbitPlot
