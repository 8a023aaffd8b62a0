import Mathlib.Logic.Relation
import OrbitPlot.Proofs.Formula.Fault
import OrbitPlot.Proofs.Formula.Reading

/-!
# Pools that reading terms can reach

One pool serves for one term after another, and a term that cannot be read leaves the constants
behind that were interned before the fault was found. `Pool.Reaches` follows the pool through any
number of such attempts, on any tokens. Whatever happens, all that becomes of the pool is that some
numbers and some brackets are interned one after the other, and the fault is none that only a
finished recurrence can have. So what interning one constant preserves, any attempts preserve: the
pool grows and stays sound.

An attempt goes through smaller steps, each of which may fail, so this is shown of every step,
whether it succeeds or not. `Pool.Logs` keeps a log of the numerals that got a slot. The numerals
that tokens ask slots for are known before the attempt; a step that fails has given slots to the
first of them, and if it fails for want of a slot, it was the next one that did not get any.
-/

namespace OrbitPlot

open FormulaError

theorem Constant.failsOnly_ofParts (pool : Pool) (whole : Text) (x y : Expr .real) :
    FailsOnly IsTextual (ofParts pool whole x y) := by
  unfold ofParts
  split
  · exact failsOnly_ok _
  · split
    · exact failsOnly_ok _
    · exact failsOnly_error trivial

/-! ## Attempts -/

namespace Pool

variable {p q r : Pool}

/-- A pool gets one more constant, or finds that it has it already: any real number, or the constant
of a bracket whose parts have been read and whose numbers are in the pool. -/
inductive Fills (p q : Pool) : Prop
  /-- A real number is interned. -/
  | real {x : Float} {slot : Nat} (h : internReal x p = .ok slot q) : Fills p q
  /-- The constant of a bracket is interned. -/
  | complex {whole left right : Text} {x y : Expr .real} {c : Constant} {slot : Nat}
    (hx : x.ReadsPart left) (hy : y.ReadsPart right) (hxs : x.Stored p) (hys : y.Stored p)
    (hc : Constant.ofParts p whole x y = .ok c) (h : internComplex c p = .ok slot q) : Fills p q

theorem Fills.extends (h : p.Fills q) : p.Extends q := by
  cases h with
  | real h => exact extends_of_internReal h
  | complex _ _ _ _ _ h => exact extends_of_internComplex h

theorem Fills.sound (h : p.Fills q) (hp : p.Sound) : q.Sound := by
  cases h with
  | real h => exact hp.internReal h
  | complex hx hy hxs hys hc h =>
    exact hp.internComplex (Constant.sound_of_ofParts hc hx.flat hy.flat hxs hys) h

/-- A pool becomes another by interning constants. -/
def Leads : Pool → Pool → Prop := Relation.ReflTransGen Fills

namespace Leads

theorem refl (p : Pool) : p.Leads p := Relation.ReflTransGen.refl

theorem single (h : p.Fills q) : p.Leads q := Relation.ReflTransGen.single h

theorem trans (h : p.Leads q) (h' : q.Leads r) : p.Leads r := Relation.ReflTransGen.trans h h'

theorem grows (h : p.Leads q) : p.Extends q := by
  induction h with
  | refl => exact .refl p
  | tail _ hstep ih => exact ih.trans hstep.extends

theorem preserves {P : Pool → Prop} (hstep : ∀ {p q : Pool}, p.Fills q → P p → P q)
    (h : p.Leads q) (hp : P p) : P q := by
  induction h with
  | refl => exact hp
  | tail _ hfills ih => exact hstep hfills ih

theorem sound (h : p.Leads q) : p.Sound → q.Sound := h.preserves Fills.sound

end Leads

/-- A pool becomes another by interning constants. The log tells which numerals have been read and
which slots they were given. -/
inductive Logs (p : Pool) : List (Text × Nat) → Pool → Prop
  /-- Nothing has been read. -/
  | refl : Logs p [] p
  /-- One more numeral is read. -/
  | number {log : List (Text × Nat)} {q r : Pool} {text : Text} {slot : Nat} {x : Float}
    (h : Logs p log q) (hread : Expr.readNumber text q = .ok (.number slot x) r) :
    Logs p (log ++ [(text, slot)]) r
  /-- The constant of a bracket is interned, which concerns no real number. -/
  | bracket {log : List (Text × Nat)} {q r : Pool} (h : Logs p log q) (hfills : q.Fills r)
    (hreals : r.reals = q.reals) : Logs p log r

namespace Logs

variable {log log' : List (Text × Nat)}

theorem trans (h : p.Logs log q) (h' : q.Logs log' r) : p.Logs (log ++ log') r := by
  induction h' with
  | refl => rwa [List.append_nil]
  | number _ hread ih => rw [← List.append_assoc]; exact .number ih hread
  | bracket _ hfills hreals ih => exact .bracket ih hfills hreals

theorem leads (h : p.Logs log q) : p.Leads q := by
  induction h with
  | refl => exact .refl p
  | number _ hread ih =>
    obtain ⟨slot, x, -, heq, hintern⟩ := Expr.readNumber_eq_ok_iff.1 hread
    cases heq
    exact ih.trans (.single (.real hintern))
  | bracket _ hfills _ ih => exact ih.trans (.single hfills)

end Logs

/-- An attempt that asks slots for the numerals `texts` has failed with the pool `q`. The log has
the first of them, and if the fault is that there is no slot for a number, this is the next one. -/
structure Fails (p : Pool) (texts : List Text) (e : FormulaError) (q : Pool) : Prop where
  logs : ∃ log rest, texts = log.map Prod.fst ++ rest ∧ p.Logs log q ∧
    (e = .tooManyReals → ∃ text ∈ rest.head?, ∃ x, Numeral.float? text = some x ∧
      q.reals.intern (· == ·) x = none)
  early : e.IsEarly

/-- An attempt that asks slots for the numerals `texts` leads from the pool `p` to the pool it ends
with, and has given slots to all of them unless it failed. -/
def Proceeds {α : Type} (p : Pool) (texts : List Text) :
    EStateM.Result FormulaError Pool α → Prop
  | .ok _ q => ∃ log, texts = log.map Prod.fst ∧ p.Logs log q
  | .error e q => p.Fails texts e q

section

variable {α β : Type} {us vs : List Text}

theorem Fails.append_right {e : FormulaError} (h : p.Fails us e q) (vs : List Text) :
    p.Fails (us ++ vs) e q := by
  obtain ⟨⟨log, rest, rfl, hlogs, hnext⟩, hearly⟩ := h
  refine ⟨⟨log, rest ++ vs, List.append_assoc .., hlogs, fun he ↦ ?_⟩, hearly⟩
  obtain ⟨text, htext, hrefused⟩ := hnext he
  exact ⟨text, by rw [List.head?_append, Option.mem_def.1 htext]; rfl, hrefused⟩

theorem proceeds_pure (a : α) : p.Proceeds [] ((pure a : Interning α) p) := ⟨[], rfl, .refl⟩

theorem fails_refl {e : FormulaError} (he : e.IsTextual ∨ e = .tooManyComplexes) :
    p.Fails us e p := by
  refine ⟨⟨[], us, rfl, .refl, ?_⟩, ?_⟩
  · rintro rfl
    exact he.elim False.elim nofun
  · obtain he | rfl := he
    · exact he.isEarly
    · trivial

theorem proceeds_throw {e : FormulaError} (he : e.IsTextual) :
    p.Proceeds us ((throw e : Interning α) p) := fails_refl (.inl he)

theorem proceeds_lift {x : Except FormulaError α} (hx : FailsOnly IsTextual x) :
    p.Proceeds [] (Interning.lift x p) := by
  cases x with
  | error e => exact fails_refl (.inl (hx e rfl))
  | ok a => exact ⟨[], rfl, .refl⟩

theorem proceeds_bind {x : Interning α} {f : α → Interning β} (hx : p.Proceeds us (x p))
    (hf : ∀ a q, x p = .ok a q → q.Proceeds vs (f a q)) :
    p.Proceeds (us ++ vs) ((x >>= f) p) := by
  cases h : x p with
  | error e q =>
    rw [h] at hx
    rw [EStateM.bind_of_eq_error h]
    exact hx.append_right vs
  | ok a q =>
    rw [h] at hx
    rw [EStateM.bind_of_eq_ok h]
    obtain ⟨log, rfl, hlogs⟩ := hx
    have hfa := hf a q h
    cases hresult : f a q with
    | ok b r =>
      rw [hresult] at hfa
      obtain ⟨log', rfl, hlogs'⟩ := hfa
      exact ⟨log ++ log', List.map_append.symm, hlogs.trans hlogs'⟩
    | error e r =>
      rw [hresult] at hfa
      obtain ⟨⟨log', rest, rfl, hlogs', hnext⟩, hearly⟩ := hfa
      refine ⟨⟨log ++ log', rest, ?_, hlogs.trans hlogs', hnext⟩, hearly⟩
      rw [List.map_append, List.append_assoc]

theorem proceeds_bind_right {x : Interning α} {f : α → Interning β} (hx : p.Proceeds us (x p))
    (hf : ∀ a q, x p = .ok a q → q.Proceeds [] (f a q)) : p.Proceeds us ((x >>= f) p) :=
  us.append_nil ▸ proceeds_bind hx hf

theorem proceeds_mapM {f : α → Interning β} {texts : α → List Text}
    (hf : ∀ a p, Proceeds p (texts a) (f a p)) (xs : List α) :
    p.Proceeds (xs.flatMap texts) (xs.mapM f p) := by
  induction xs generalizing p with
  | nil => exact proceeds_pure []
  | cons x xs ih =>
    rw [List.mapM_cons, List.flatMap_cons]
    exact proceeds_bind (hf x p) fun y q _ ↦ proceeds_bind_right ih fun ys r _ ↦ proceeds_pure _

end

theorem proceeds_internComplex {whole left right : Text} {x y : Expr .real} {c : Constant}
    (hx : x.ReadsPart left) (hy : y.ReadsPart right) (hxs : x.Stored p) (hys : y.Stored p)
    (hc : Constant.ofParts p whole x y = .ok c) : p.Proceeds [] (internComplex c p) := by
  cases h : internComplex c p with
  | ok slot q =>
    obtain ⟨complexes, hintern, rfl⟩ := internComplex_eq_ok_iff.1 h
    exact ⟨[], rfl, .bracket .refl (.complex hx hy hxs hys hc h) rfl⟩
  | error e q =>
    unfold internComplex at h
    split at h
    · cases h
    · cases h
      exact fails_refl (.inr rfl)

/-! ## The steps of an attempt -/

end Pool

/-- The numerals that a token asks slots for. -/
def Token.asked (ofBracket : Text → List Text) : Token → List Text
  | numeral text => [text]
  | bracketed text => ofBracket text
  | _ => []

namespace Text

/-- The numerals that a part of a bracket asks slots for. -/
def askedInPart (text : Text) : List Text :=
  match Token.scan text with
  | .ok tokens => tokens.flatMap (Token.asked fun _ ↦ [])
  | .error _ => []

/-- The numerals that a bracket asks slots for. -/
def askedInBracket (text : Text) : List Text :=
  match text.unbracketed.splitOn ',' with
  | [left, right] => askedInPart left ++ askedInPart right
  | _ => []

end Text

namespace Pool

variable {p q r : Pool} {bracket : Text → Interning (Expr .complex)} {atStart : Bool}
  {ofBracket : Text → List Text}

theorem proceeds_readNumber (text : Text) : p.Proceeds [text] (Expr.readNumber text p) := by
  unfold Expr.readNumber
  cases hx : Numeral.float? text with
  | none => exact proceeds_throw trivial
  | some x =>
    dsimp only
    cases hintern : internReal x p with
    | ok slot q =>
      rw [EStateM.bind_of_eq_ok hintern]
      have hread : Expr.readNumber text p = .ok (.number slot x) q :=
        Expr.readNumber_eq_ok_iff.2 ⟨slot, x, hx, rfl, hintern⟩
      exact ⟨[(text, slot)], rfl, .number .refl hread⟩
    | error e q =>
      rw [EStateM.bind_of_eq_error hintern]
      unfold internReal at hintern
      split at hintern
      · cases hintern
      · next hnone =>
        cases hintern
        exact ⟨⟨[], [text], rfl, .refl, fun _ ↦ ⟨text, rfl, x, hx, hnone⟩⟩, trivial⟩

theorem proceeds_ofTokens (hbracket : ∀ text p, Proceeds p (ofBracket text) (bracket text p))
    (tokens : List Token) :
    p.Proceeds (tokens.flatMap (Token.asked ofBracket))
      (Operand.ofTokens bracket atStart tokens p) := by
  refine proceeds_bind_right (proceeds_mapM (fun t p ↦ ?_) tokens)
    fun row q _ ↦ proceeds_lift (Item.failsOnly_combine row)
  cases t with
  | binary op => exact proceeds_pure _
  | unary op => exact proceeds_pure _
  | var v =>
    rw [Item.ofToken]
    split
    · exact proceeds_throw trivial
    · exact proceeds_pure _
  | numeral text => exact proceeds_bind_right (proceeds_readNumber text) fun e q _ ↦ proceeds_pure _
  | bracketed text => exact proceeds_bind_right (hbracket text p) fun e q _ ↦ proceeds_pure _

theorem proceeds_readPart (hbracket : ∀ text p, Proceeds p [] (bracket text p))
    (whole text : Text) :
    p.Proceeds text.askedInPart (Expr.readPart bracket atStart whole text p) := by
  rw [← text.askedInPart.nil_append]
  refine proceeds_bind (proceeds_lift (Token.failsOnly_scan text)) fun tokens q hscan ↦ ?_
  obtain ⟨htokens, rfl⟩ := Interning.lift_eq_ok_iff.1 hscan
  split
  · exact proceeds_throw trivial
  · rw [Text.askedInPart, htokens]
    refine proceeds_bind_right (proceeds_ofTokens hbracket tokens) fun o r _ ↦ ?_
    match o with
    | ⟨(e : Expr .real)⟩ => exact proceeds_pure e
    | ⟨(e : Expr .complex)⟩ => exact proceeds_throw trivial

theorem proceeds_readBracket (text : Text) :
    p.Proceeds text.askedInBracket (Expr.readBracket atStart 1 text p) := by
  have hnone : ∀ text p e q, Expr.readBracket atStart 0 text p ≠ .ok e q := by
    rintro text p e q ⟨⟩
  have hpart {p : Pool} (whole text : Text) :
      p.Proceeds text.askedInPart
        (Expr.readPart (Expr.readBracket atStart 0) atStart whole text p) :=
    proceeds_readPart (fun text p ↦ proceeds_throw (e := .notPair text) trivial) whole text
  rw [Expr.readBracket, Text.askedInBracket]
  rcases hsplit : text.unbracketed.splitOn ',' with _ | ⟨left, _ | ⟨right, _ | ⟨more, rest⟩⟩⟩
  · exact proceeds_throw trivial
  · exact proceeds_throw trivial
  · obtain ⟨-, hl, hr⟩ := Text.splitOn_eq_pair_iff.1 hsplit
    refine proceeds_bind (hpart text left) fun x p₁ hx ↦
      proceeds_bind_right (hpart text right) fun y p₂ hy ↦ ?_
    obtain ⟨hreadx, hinternx, -⟩ := (Expr.readPart_eq_ok_iff hnone hl).1 hx
    obtain ⟨hready, hinterny, -⟩ := (Expr.readPart_eq_ok_iff hnone hr).1 hy
    refine proceeds_bind_right (x := get) ⟨[], rfl, .refl⟩ ?_
    rintro _ _ ⟨⟩
    refine proceeds_bind_right (proceeds_lift (Constant.failsOnly_ofParts _ _ _ _)) fun c p₃ hc ↦ ?_
    obtain ⟨hc, rfl⟩ := Interning.lift_eq_ok_iff.1 hc
    -- both parts have been interned by now, so the constant names only what is in the pool
    have hstored := hinternx.stored.mono hinterny.extends
    exact proceeds_bind_right (proceeds_internComplex hreadx hready hstored hinterny.stored hc)
      fun slot q _ ↦ proceeds_pure _
  · exact proceeds_throw trivial

theorem proceeds_program (atStart : Bool) (tokens : List Token) :
    p.Proceeds (tokens.flatMap (Token.asked Text.askedInBracket))
      (Program.ofTokens atStart tokens p) := by
  refine proceeds_bind_right (proceeds_ofTokens (fun text p ↦ proceeds_readBracket text) tokens)
    fun o q _ ↦ ?_
  match o with
  | ⟨(e : Expr .complex)⟩ => exact proceeds_pure _
  | ⟨(e : Expr .real)⟩ => exact proceeds_throw trivial

theorem proceeds_ofTerms (firsts nexts : List Token) :
    p.Proceeds ((firsts ++ nexts).flatMap (Token.asked Text.askedInBracket))
      (Program.ofTerms firsts nexts p) := by
  rw [List.flatMap_append]
  exact proceeds_bind (proceeds_program true firsts) fun _ q _ ↦
    proceeds_bind_right (proceeds_program false nexts) fun _ r _ ↦ proceeds_pure _

/-! ## Any number of attempts -/

/-- The pool after an attempt, successful or not. -/
def after {α : Type} : EStateM.Result FormulaError Pool α → Pool
  | .ok _ pool => pool
  | .error _ pool => pool

/-- One pool serves for any number of attempts to read terms, on any tokens. -/
inductive Reaches : Pool → Pool → Prop
  /-- Without an attempt, the pool stays as it is. -/
  | refl (p : Pool) : Reaches p p
  /-- One more attempt is made, which may succeed or fail. -/
  | attempt {p q : Pool} (h : Reaches p q) (atStart : Bool) (tokens : List Token) :
    Reaches p (after (Program.ofTokens atStart tokens q))

theorem Reaches.leads (h : p.Reaches q) : p.Leads q := by
  induction h with
  | refl => exact .refl p
  | @attempt q _ atStart tokens ih =>
    have hstep := proceeds_program (p := q) atStart tokens
    cases hresult : Program.ofTokens atStart tokens q with
    | ok program r =>
      rw [hresult] at hstep
      obtain ⟨log, -, hlogs⟩ := hstep
      exact ih.trans hlogs.leads
    | error e r =>
      rw [hresult] at hstep
      obtain ⟨⟨log, rest, -, hlogs, -⟩, -⟩ := hstep
      exact ih.trans hlogs.leads

theorem Reaches.sound (h : Reaches {} p) : p.Sound := h.leads.sound sound_empty

end Pool

end OrbitPlot
