import OrbitPlot.Proofs.Program.Reads
import OrbitPlot.Proofs.Recurrence.Reached

/-!
# Brackets inside brackets

Reading a bracket reads its parts, and in these there may be brackets again; running a program may
run the programs of slots, and these may name slots again. Both recursions end, although nothing
looks for brackets inside brackets: the comma that the outer bracket is divided at leaves none for
an inner one. So an inner bracket is refused as soon as it is met, no matter which tokens a term is
made of, and no program that gets into a pool names a complex slot.

That a recursion goes no deeper is said by leaving open what would happen there: the function that
is called in the depth may be any, and makes no difference.

## Main statements

* `Expr.readBracketBy_readBracketBy`: reading brackets goes one level down at most.
* `Pool.Reaches.unnested`: what the programs in a pool consist of.
* `nesting_of_reaches`: all that is recursive ends after one level.
-/

namespace OrbitPlot

open Interning Machine

/-! ## Reading -/

/-- The expression of a bracket, given how the brackets inside it are read. -/
def Expr.readBracketBy (bracket : Text → Interning (Expr .complex)) (atStart : Bool)
    (text : Text) : Interning (Expr .complex) :=
  match text.unbracketed.splitOn ',' with
  | [left, right] => do
    let x ← readPart bracket atStart text left
    let y ← readPart bracket atStart text right
    let constant ← lift (Constant.ofParts (← get) text x y)
    return .bracket (← Pool.internComplex constant) x y
  | _ => throw (.notPair text)

/-- The program of a term, given how its brackets are read. -/
def Program.ofTokensBy (bracket : Text → Interning (Expr .complex)) (atStart : Bool)
    (tokens : List Token) : Interning Program := do
  match ← Operand.ofTokens bracket atStart tokens with
  | ⟨(e : Expr .complex)⟩ => return e.program
  | ⟨(e : Expr .real)⟩ => throw (.notComplex e.source)

/-- A bracket holds another, as far as tokens tell, in one of its two parts. -/
def Text.Encloses (text inner : Text) : Prop :=
  ∃ left right part tokens, text.unbracketed.splitOn ',' = [left, right] ∧
    part ∈ [left, right] ∧ Token.scan part = .ok tokens ∧ .bracketed inner ∈ tokens

theorem Text.Encloses.not_mem {text inner : Text} (h : text.Encloses inner) : ',' ∉ inner := by
  obtain ⟨left, right, part, tokens, hsplit, hpart, hscan, hinner⟩ := h
  obtain ⟨-, hl, hr⟩ := Text.splitOn_eq_pair_iff.1 hsplit
  obtain ⟨-, hspell⟩ := Token.canonical_of_outside (Token.outside_of_scan hscan)
  intro hmem
  have hcomma : ',' ∈ part := hspell ▸ List.mem_flatMap.2 ⟨_, hinner, hmem⟩
  simp only [List.mem_cons, List.not_mem_nil, or_false] at hpart
  rcases hpart with rfl | rfl
  · exact hl hcomma
  · exact hr hcomma

variable {bracket bracket' : Text → Interning (Expr .complex)} {atStart : Bool}

theorem Operand.ofTokens_congr {tokens : List Token}
    (h : ∀ inner, .bracketed inner ∈ tokens → bracket inner = bracket' inner) :
    ofTokens bracket atStart tokens = ofTokens bracket' atStart tokens := by
  have hrow : tokens.mapM (Item.ofToken bracket atStart) =
      tokens.mapM (Item.ofToken bracket' atStart) := by
    induction tokens with
    | nil => rfl
    | cons t tokens ih =>
      have ht : Item.ofToken bracket atStart t = Item.ofToken bracket' atStart t := by
        cases t with
        | bracketed inner => rw [Item.ofToken, Item.ofToken, h inner List.mem_cons_self]
        | _ => rfl
      rw [List.mapM_cons, List.mapM_cons, ht,
        ih fun inner hinner ↦ h inner (List.mem_cons_of_mem _ hinner)]
  rw [ofTokens, ofTokens, hrow]

namespace Expr

variable {text inner : Text}

theorem readBracket_succ (depth : Nat) :
    readBracket atStart (depth + 1) = readBracketBy (readBracket atStart depth) atStart := rfl

theorem readPart_congr (h : ∀ tokens inner, Token.scan text = .ok tokens →
    .bracketed inner ∈ tokens → bracket inner = bracket' inner) (whole : Text) :
    readPart bracket atStart whole text = readPart bracket' atStart whole text := by
  unfold readPart
  cases hscan : Token.scan text with
  | error e => rfl
  | ok tokens =>
    have hsame : Operand.ofTokens bracket atStart tokens =
        Operand.ofTokens bracket' atStart tokens :=
      Operand.ofTokens_congr fun inner ↦ h tokens inner hscan
    simp only [lift, pure_bind, hsame]

theorem readBracketBy_congr (h : ∀ inner, text.Encloses inner → bracket inner = bracket' inner) :
    readBracketBy bracket atStart text = readBracketBy bracket' atStart text := by
  unfold readBracketBy
  split
  · next left right hsplit =>
    have hpart {part : Text} (hpart : part ∈ [left, right]) :
        readPart bracket atStart text part = readPart bracket' atStart text part :=
      readPart_congr (fun tokens inner hscan hinner ↦
        h inner ⟨left, right, part, tokens, hsplit, hpart, hscan, hinner⟩) text
    rw [hpart List.mem_cons_self, hpart (List.mem_cons_of_mem _ List.mem_cons_self)]
  · rfl

theorem readBracketBy_of_not_mem (h : ',' ∉ text) :
    readBracketBy bracket atStart text = throw (.notPair text) := by
  have hmem : ',' ∉ text.unbracketed := fun hmem ↦
    h ((List.dropWhile_sublist _).mem (List.mem_reverse.1
      ((List.dropWhile_sublist _).mem (List.mem_reverse.1 hmem))))
  unfold readBracketBy
  rw [List.splitOn_eq_singleton hmem]

/-- **Reading brackets goes one level down at most**: what would be done on the second is never
done. -/
theorem readBracketBy_readBracketBy (bracket : Text → Interning (Expr .complex)) (atStart : Bool) :
    readBracketBy (readBracketBy bracket atStart) atStart = readBracket atStart 1 := by
  funext text
  rw [readBracket_succ]
  exact readBracketBy_congr fun inner hinner ↦ readBracketBy_of_not_mem hinner.not_mem

/-- So the recursion determines how brackets are read. -/
theorem eq_readBracketBy_iff :
    bracket = readBracketBy bracket atStart ↔ bracket = readBracket atStart 1 := by
  constructor
  · intro h
    have htwice := readBracketBy_readBracketBy bracket atStart
    rwa [← h, ← h] at htwice
  · rintro rfl
    exact (readBracketBy_readBracketBy (readBracket atStart 0) atStart).symm

end Expr

/-! ## Programs in a pool -/

/-- An instruction that neither names a complex slot nor joins points. -/
def Instr.IsPlain : Instr → Prop
  | complex _ | binary _ .complex => False
  | _ => True

/-- A program that needs no other: no instruction names a complex slot or joins points, and some
instruction reads a variable. -/
structure Program.IsLeaf (program : Program) : Prop where
  /-- No instruction names a complex slot or joins points. -/
  plain : ∀ i ∈ program.code, i.IsPlain
  /-- Some instruction reads a variable. -/
  load : ∃ v, .load v ∈ program.code

namespace Expr

variable {kind : Kind} {text : Text} {e : Expr kind}

/-- Points are joined only where the result is a point, and no operator on one value takes such a
result, since it takes a factor. -/
private theorem isPlain_of_derives {g : Grade}
    (h : Derives Text.alphabet (Simple (',' :: Text.reserved)) g text e)
    (hg : g = .factor ∨ kind = .real) : ∀ i ∈ e.code, i.IsPlain := by
  induction h with
  | atom h =>
    cases h with
    | var v => exact List.forall_mem_singleton.2 trivial
    | number slot _ _ => exact List.forall_mem_singleton.2 trivial
  | @unary op _ _ _ ih =>
    cases op <;>
      exact List.forall_mem_append.2 ⟨ih (.inl rfl), List.forall_mem_singleton.2 trivial⟩
  | product _ ih => exact ih (.inl rfl)
  | mul _ _ ihl ihr =>
    obtain rfl := hg.resolve_left nofun
    exact List.forall_mem_append.2 ⟨List.forall_mem_append.2 ⟨ihl (.inr rfl), ihr (.inl rfl)⟩,
      List.forall_mem_singleton.2 trivial⟩
  | sum _ ih => exact ih (.inr (hg.resolve_left nofun))
  | additive _ _ _ ihl ihr =>
    obtain rfl := hg.resolve_left nofun
    exact List.forall_mem_append.2 ⟨List.forall_mem_append.2 ⟨ihl (.inr rfl), ihr (.inr rfl)⟩,
      List.forall_mem_singleton.2 trivial⟩

theorem ReadsPart.isPlain {x : Expr .real} (h : x.ReadsPart text) : ∀ i ∈ x.code, i.IsPlain :=
  isPlain_of_derives h (.inr rfl)

theorem Flat.exists_load (h : e.Flat) (hv : e.varies) : ∃ v, .load v ∈ e.code := by
  induction e with
  | var v => exact ⟨v, List.mem_cons_self⟩
  | number slot value => cases hv
  | bracket slot x y => exact h.elim
  | abs e ih | re e ih | im e ih =>
    obtain ⟨v, hload⟩ := ih h hv
    exact ⟨v, List.mem_append_left _ hload⟩
  | binary op left right ihl ihr =>
    rcases Bool.or_eq_true_iff.1 hv with hv | hv
    · obtain ⟨v, hload⟩ := ihl h.1 hv
      exact ⟨v, List.mem_append_left _ (List.mem_append_left _ hload)⟩
    · obtain ⟨v, hload⟩ := ihr h.2 hv
      exact ⟨v, List.mem_append_left _ (List.mem_append_right _ hload)⟩

end Expr

theorem Constant.isLeaf_of_ofParts {pool : Pool} {whole left right : Text} {x y : Expr .real}
    {program : Program} (hx : x.ReadsPart left) (hy : y.ReadsPart right)
    (h : ofParts pool whole x y = .ok (.varying program)) : program.IsLeaf := by
  unfold ofParts at h
  split at h
  · next hvaries =>
    cases h
    refine ⟨List.forall_mem_append.2 ⟨List.forall_mem_append.2 ⟨hx.isPlain, hy.isPlain⟩,
      List.forall_mem_singleton.2 trivial⟩, ?_⟩
    rcases Bool.or_eq_true_iff.1 hvaries with hv | hv
    · obtain ⟨v, hload⟩ := hx.flat.exists_load hv
      exact ⟨v, List.mem_append_left _ (List.mem_append_left _ hload)⟩
    · obtain ⟨v, hload⟩ := hy.flat.exists_load hv
      exact ⟨v, List.mem_append_left _ (List.mem_append_right _ hload)⟩
  · split at h <;> cases h

namespace Pool

variable {p q : Pool}

/-- No program in the pool needs another. -/
def Unnested (pool : Pool) : Prop :=
  ∀ ⦃slot program⦄, pool.complexes.get? slot = some (.varying program) → program.IsLeaf

theorem unnested_empty : Unnested {} := by
  intro slot program hslot
  rw [Slots.get?_empty] at hslot
  cases hslot

theorem Fills.unnested (h : p.Fills q) (hp : p.Unnested) : q.Unnested := by
  cases h with
  | real h =>
    obtain ⟨reals, -, rfl⟩ := internReal_eq_ok_iff.1 h
    exact hp
  | complex hx hy _ _ hc h =>
    obtain ⟨complexes, hintern, rfl⟩ := internComplex_eq_ok_iff.1 h
    intro slot program hslot
    rcases Slots.get?_eq_or_of_intern hintern hslot with hold | rfl
    · exact hp hold
    · exact Constant.isLeaf_of_ofParts hx hy hc

/-- **Brackets never nest**: whatever has been attempted with a pool, no program in it needs
another. -/
theorem Reaches.unnested (h : Reaches {} p) : p.Unnested :=
  h.leads.preserves Fills.unnested unnested_empty

end Pool

/-! ## Following slots -/

/-- Whether the constant in a slot reads a variable, given which slots do that it names. -/
def Pool.slotReadsBy (pool : Pool) (slotReads : Nat → Bool) (v : Variable) (slot : Nat) : Bool :=
  match pool.complexes.get? slot with
  | some (.varying program) => program.code.any (Instr.reads slotReads v)
  | _ => false

/-- The value of a complex slot, given the values of those that it names. -/
def Pool.slotValueBy (pool : Pool) (slotValue : Nat → Run Point) (b : Bindings) (slot : Nat) :
    Run Point := fun m ↦
  match m.known.lookup slot with
  | some z => .ok z m
  | none =>
    match pool.complexes.get? slot with
    | some (.fixed z) => .ok z m
    | some (.varying program) =>
      (do
        Instr.runAll slotValue pool b program.code
        let z ← popPoint
        remember slot z
        return z : Run Point) m
    | none => .error .malformed m

theorem Program.IsLeaf.any_reads_iff {program : Program} (h : program.IsLeaf)
    {slotReads : Nat → Bool} {v : Variable} :
    program.code.any (Instr.reads slotReads v) ↔ .load v ∈ program.code :=
  Instr.any_reads_iff.trans (or_iff_left fun ⟨_, hslot, _⟩ ↦ h.plain _ hslot)

theorem Program.IsLeaf.runAll_eq {program : Program} (h : program.IsLeaf) {pool : Pool}
    {b : Bindings} (slotValue slotValue' : Nat → Run Point) :
    Instr.runAll slotValue pool b program.code = Instr.runAll slotValue' pool b program.code :=
  Instr.runAll_congr pool (fun _ _ ↦ rfl) fun _ hslot ↦ (h.plain _ hslot).elim

/-- The value of a program, given the values of complex slots. -/
def Program.evaluateBy (slotValue : Nat → Run Point) (pool : Pool) (b : Bindings)
    (program : Program) : Run Point := do
  reset
  Instr.runAll slotValue pool b program.code
  popPoint

namespace Pool.Unnested

variable {pool : Pool} {b : Bindings} {v : Variable} {slotReads : Nat → Bool}
  {slotValue : Nat → Run Point} {slot : Nat}

theorem slotReads_eq (h : pool.Unnested) :
    pool.slotReads v pool.depth slot = pool.slotReadsBy slotReads v slot := by
  rcases hslot : pool.complexes.get? slot with _ | c
  · rw [slotReadsBy]
    unfold Pool.slotReads
    split <;> simp only [hslot]
  · obtain ⟨d, hd⟩ := Pool.exists_depth_eq_succ hslot
    rw [hd, Pool.slotReads, slotReadsBy, hslot]
    cases c with
    | fixed z => rfl
    | varying program =>
      exact Bool.eq_iff_iff.2 ((h hslot).any_reads_iff.trans (h hslot).any_reads_iff.symm)

theorem slotValue_eq (h : pool.Unnested) :
    pool.slotValue b pool.depth slot = pool.slotValueBy slotValue b slot := by
  funext m
  rw [slotValueBy]
  rcases hknown : m.known.lookup slot with _ | z
  · rcases hslot : pool.complexes.get? slot with _ | c
    · exact Pool.slotValue_blocked hknown fun c hc ↦ nomatch hslot.symm.trans hc
    · cases c with
      | fixed z => exact Pool.slotValue_fixed hknown hslot
      | varying program =>
        obtain ⟨d, hd⟩ := Pool.exists_depth_eq_succ hslot
        rw [hd, Pool.slotValue_varying hknown hslot, (h hslot).runAll_eq _ slotValue]
  · exact Pool.slotValue_of_known hknown

end Pool.Unnested

/-- **All that is recursive ends after one level.** Whatever has been attempted with a pool:

* whatever tokens a term consists of, also such as are not the spelling of any text, and whatever is
  done with brackets two levels down, the term is read the same;
* so it is by any function that reads brackets by calling itself for the brackets inside;
* no program in the pool names a complex slot or joins points, and each reads a variable;
* for programs of any instructions, what they read and what they evaluate to in the pool is found by
  looking into the slots that they name themselves, whatever further slots might read or yield. -/
theorem nesting_of_reaches {p : Pool} (hp : Pool.Reaches {} p) :
    (∀ atStart tokens bracket, Program.ofTokens atStart tokens =
      Program.ofTokensBy (Expr.readBracketBy (Expr.readBracketBy bracket atStart) atStart)
        atStart tokens) ∧
    (∀ atStart tokens bracket, (∀ text, bracket text = Expr.readBracketBy bracket atStart text) →
      Program.ofTokens atStart tokens = Program.ofTokensBy bracket atStart tokens) ∧
    (∀ slot program, p.complexes.get? slot = some (.varying program) →
      (∀ i ∈ program.code, (∀ k, i ≠ .complex k) ∧ ∀ op, i ≠ .binary op .complex) ∧
        ∃ v, .load v ∈ program.code) ∧
    ∀ program : Program,
      (∀ v slotReads, program.reads p v =
        program.code.any (Instr.reads (p.slotReadsBy slotReads v) v)) ∧
      ∀ b slotValue, program.evaluate p b = program.evaluateBy (p.slotValueBy slotValue b) p b := by
  have hunnested := hp.unnested
  refine ⟨fun atStart tokens bracket ↦ ?_, fun atStart tokens bracket h ↦ ?_,
    fun slot program hslot ↦ ?_, fun program ↦ ⟨fun v slotReads ↦ ?_, fun b slotValue ↦ ?_⟩⟩
  · rw [Expr.readBracketBy_readBracketBy]
    rfl
  · rw [Expr.eq_readBracketBy_iff.1 (funext h)]
    rfl
  · obtain ⟨hplain, hload⟩ := hunnested hslot
    refine ⟨fun i hi ↦ ⟨?_, ?_⟩, hload⟩
    · rintro k rfl
      exact hplain _ hi
    · rintro op rfl
      exact hplain _ hi
  · have hslots : p.slotReads v p.depth = p.slotReadsBy slotReads v :=
      funext fun slot ↦ hunnested.slotReads_eq
    rw [Program.reads, hslots]
  · have hslots : p.slotValue b p.depth = p.slotValueBy slotValue b :=
      funext fun slot ↦ hunnested.slotValue_eq
    rw [Program.evaluate, Program.run, hslots]
    rfl

/-- After a bracket with one end too many, which is read, and one that encloses another, which is
not, a program made by hand reads what the program of the first bracket reads, and evaluates to the
point that this leaves. -/
theorem nesting_of_reaches_of_enclosed : ∃ p program, Pool.Reaches {} p ∧
    p.complexes.get? 0 = some (.varying program) ∧ (∃ v, .load v ∈ program.code) ∧
    Program.reads p .previous ⟨[], [.complex 0]⟩ ∧
    ∀ b slotValue, Program.evaluate p b ⟨[], [.complex 0]⟩ =
      Program.evaluateBy (p.slotValueBy slotValue b) p b ⟨[], [.complex 0]⟩ := by
  have hp := Pool.Reaches.attempt (.attempt (.refl {}) false [.bracketed "[[rp,1]".toList]) false
    [.bracketed "[1[2]3,4]".toList]
  have hslot : (Pool.after (Program.ofTokens false [.bracketed "[1[2]3,4]".toList]
      (.after (Program.ofTokens false [.bracketed "[[rp,1]".toList] {})))).complexes.get? 0 =
        some (.varying ⟨"[rp,1.0]".toList, [.load .previous, .unary .re, .real 0, .pair]⟩) := by
    decide +kernel
  generalize Pool.after (Program.ofTokens false [.bracketed "[1[2]3,4]".toList] _) = p at hp hslot
  obtain ⟨-, -, hslots, hprograms⟩ := nesting_of_reaches hp
  obtain ⟨hreads, hevaluate⟩ := hprograms ⟨[], [.complex 0]⟩
  refine ⟨p, _, hp, hslot, (hslots 0 _ hslot).2, ?_, hevaluate⟩
  rw [hreads .previous fun _ ↦ false]
  simp [Instr.reads, Pool.slotReadsBy, hslot]

end OrbitPlot
