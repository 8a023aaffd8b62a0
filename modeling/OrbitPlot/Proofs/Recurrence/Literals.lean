import OrbitPlot.Proofs.Recurrence.Spelling

/-!
# Literals

The literals of a term are its numbers and its brackets. Only they have slots, and an instruction of
the program that names a slot was made of one of them: postfix order does not change the order of
operands.

The numbers in a text, inside brackets or not, can also be found without a scanner: they are the
longest runs of characters that have no meaning of their own.

## Main statements

* `Expr.filter_code`: the slots that code names are those of the literals.
* `Token.forall₂_literals`: each literal is spelled by its token.
* `Expr.Reads.map_numerals`: the numbers of an expression are the numerals of its text.
-/

namespace OrbitPlot

/-- A number or a bracket of a term, with the slot that it was given. -/
inductive Literal where
  /-- A number. -/
  | number (slot : Nat) (value : Float)
  /-- A bracket with its two parts. -/
  | bracket (slot : Nat) (x y : Expr .real)

namespace Expr

variable {kind : Kind}

/-- The literals outside brackets and the brackets themselves, in the order of the text. -/
def literals {kind : Kind} : Expr kind → List Literal
  | var _ => []
  | number slot value => [.number slot value]
  | bracket slot x y => [.bracket slot x y]
  | abs e => e.literals
  | re e => e.literals
  | im e => e.literals
  | binary _ left right => left.literals ++ right.literals

/-- The numbers of an expression with their slots, in the order of the text. Those of a bracket
stand at its place. -/
def numbered {kind : Kind} : Expr kind → List (Nat × Float)
  | var _ => []
  | number slot value => [(slot, value)]
  | bracket _ x y => x.numbered ++ y.numbered
  | abs e => e.numbered
  | re e => e.numbered
  | im e => e.numbered
  | binary _ left right => left.numbered ++ right.numbered

theorem literals_unary {op : UnaryOp} {e : Expr op.operandKind} :
    (Expr.unary op e).literals = e.literals := by
  cases op <;> rfl

theorem map_snd_numbered (e : Expr kind) : e.numbered.map Prod.snd = e.numbers := by
  induction e with
  | var v => rfl
  | number slot value => rfl
  | bracket slot x y ihx ihy => rw [numbered, List.map_append, ihx, ihy, numbers]
  | abs e ih => exact ih
  | re e ih => exact ih
  | im e ih => exact ih
  | binary op left right ihl ihr => rw [numbered, List.map_append, ihl, ihr, numbers]

end Expr

namespace Literal

/-- The instruction that puts the value of a literal on its stack. -/
def instr : Literal → Instr
  | number slot _ => .real slot
  | bracket slot _ _ => .complex slot

/-- The numbers of a literal with their slots. -/
def numbered : Literal → List (Nat × Float)
  | number slot value => [(slot, value)]
  | bracket _ x y => x.numbered ++ y.numbered

/-- The constant of a bracket with its slot. -/
def constant? : Literal → Option (Nat × Constant)
  | number _ _ => none
  | bracket slot x y => some (slot, .ofBracket x y)

end Literal

/-! ## The slots that code names -/

/-- Whether an instruction names a slot. -/
def Instr.isSlot : Instr → Bool
  | real _ => true
  | complex _ => true
  | _ => false

namespace Expr

variable {kind : Kind}

theorem filter_code (e : Expr kind) :
    e.code.filter Instr.isSlot = e.literals.map Literal.instr := by
  -- an operator behind its operands names no slot
  have hdrop (code : List Instr) {i : Instr} (hi : i.isSlot = false) :
      (code ++ [i]).filter Instr.isSlot = code.filter Instr.isSlot := by
    rw [List.filter_append, List.filter_singleton, hi, cond_false, List.append_nil]
  induction e with
  | var v => rfl
  | number slot value => rfl
  | bracket slot x y => rfl
  | abs e ih => exact (hdrop _ rfl).trans ih
  | re e ih => exact (hdrop _ rfl).trans ih
  | im e ih => exact (hdrop _ rfl).trans ih
  | binary op left right ihl ihr =>
    rw [code, hdrop _ rfl, List.filter_append, ihl, ihr, literals, List.map_append]

theorem numbered_eq_flatMap (e : Expr kind) : e.numbered = e.literals.flatMap Literal.numbered := by
  induction e with
  | var v => rfl
  | number slot value => rfl
  | bracket slot x y => exact (List.append_nil _).symm
  | abs e ih => exact ih
  | re e ih => exact ih
  | im e ih => exact ih
  | binary op left right ihl ihr => rw [numbered, ihl, ihr, literals, List.flatMap_append]

theorem Flat.map_instr {e : Expr kind} (h : e.Flat) :
    e.literals.map Literal.instr = e.numbered.map fun n ↦ Instr.real n.1 := by
  induction e with
  | var v => rfl
  | number slot value => rfl
  | bracket slot x y => exact absurd h id
  | abs e ih => exact ih h
  | re e ih => exact ih h
  | im e ih => exact ih h
  | binary op left right ihl ihr =>
    rw [literals, List.map_append, ihl h.1, ihr h.2, numbered, List.map_append]

theorem filter_code_bracket {x y : Expr .real} (hx : x.Flat) (hy : y.Flat) :
    (Program.bracket x y).code.filter Instr.isSlot =
      (x.numbered ++ y.numbered).map fun n ↦ Instr.real n.1 := by
  rw [Program.bracket, List.filter_append, List.filter_append, filter_code, filter_code,
    hx.map_instr, hy.map_instr, List.map_append]
  exact List.append_nil _

end Expr

/-! ## Tokens of literals -/

namespace Token

/-- Whether a token is a literal. -/
def isLiteral : Token → Bool
  | numeral _ => true
  | bracketed _ => true
  | _ => false

/-- What is spelled by the token of a literal. -/
inductive Spells : Token → Literal → Prop
  /-- A numeral is the number that it reads as. -/
  | number {text : Text} {value : Float} (slot : Nat) (h : Numeral.float? text = some value) :
    Spells (.numeral text) (.number slot value)
  /-- A bracket has two parts, which the grammar reads. -/
  | bracket {left right : Text} {x y : Expr .real} (slot : Nat) (hx : x.ReadsPart left)
    (hy : y.ReadsPart right) :
    Spells (.bracketed (Expr.bracketText left right)) (.bracket slot x y)

variable {kind : Kind} {tokens : List Token} {e : Expr kind}

theorem Sound.eq_of_spelling_eq {t t' : Token} (h : t.Sound) (h' : t'.Sound) (hends : t.Ends)
    (hends' : t'.Ends) (heq : t.spelling = t'.spelling) : t = t' := by
  have hscan {t : Token} (h : t.Sound) (hends : t.Ends) : scan t.spelling = .ok [t] := by
    have hhead (op : BinaryOp) : [t].head? ≠ some (.binary op) := by
      rintro ⟨⟩
      exact hends
    rw [← scan_spell (.last h hends) hhead, spell_cons]
    exact congrArg scan (List.append_nil _).symm
  have htokens := (hscan h hends).symm.trans ((congrArg scan heq).trans (hscan h' hends'))
  cases htokens
  rfl

theorem forall₂_literals_of_atom (h : Atom Expr.Atom kind tokens e) :
    List.Forall₂ Spells (tokens.filter isLiteral) e.literals := by
  obtain ⟨t, rfl, hsound, hends, hatom⟩ := h
  generalize htext : t.spelling = text at hatom
  cases hatom with
  | simple h =>
    cases h with
    | var v =>
      obtain rfl : t = .var v := hsound.eq_of_spelling_eq (.var v) hends trivial htext
      exact .nil
    | number slot hchars hvalue =>
      have hne : text ≠ [] := by
        rintro rfl
        cases hvalue
      obtain rfl : t = .numeral text :=
        hsound.eq_of_spelling_eq (.numeral hne hchars) hends trivial htext
      exact .cons (.number slot hvalue) .nil
  | @bracket left right x y slot hx hy =>
    have hopen : '[' ∉ left ++ ',' :: right := by simp [hx.not_mem, hy.not_mem]
    have hclose : ']' ∉ left ++ ',' :: right := by simp [hx.not_mem, hy.not_mem]
    have hbody : '[' :: (left ++ ',' :: right) ++ [']'] = Expr.bracketText left right := by
      rw [Expr.bracketText_eq]
    obtain rfl : t = .bracketed (Expr.bracketText left right) :=
      hsound.eq_of_spelling_eq (hbody ▸ .bracketed hopen hclose) hends trivial htext
    exact .cons (.bracket slot hx hy) .nil

/-- The tokens of literals spell the literals of what the tokens stand for. -/
theorem forall₂_literals {g : Grade} (h : Derives alphabet (Atom Expr.Atom) g tokens e) :
    List.Forall₂ Spells (tokens.filter isLiteral) e.literals := by
  induction h with
  | atom h => exact forall₂_literals_of_atom h
  | unary _ ih => rwa [Expr.literals_unary]
  | product _ ih => exact ih
  | mul _ _ ihl ihr =>
    rw [List.filter_append]
    exact List.rel_append ihl ihr
  | sum _ ih => exact ih
  | additive _ _ _ ihl ihr =>
    rw [List.filter_append]
    exact List.rel_append ihl ihr

end Token

theorem Expr.Reads.forall₂_literals {kind : Kind} {text : Text} {e : Expr kind}
    {tokens : List Token} (h : e.Reads text) (hscan : Token.scan text = .ok tokens) :
    List.Forall₂ Token.Spells (tokens.filter Token.isLiteral) e.literals := by
  obtain ⟨tokens', rfl, hder⟩ := Token.exists_derives_of_text h fun kind text e h ↦ h.exists_token
  rw [Token.scan_of_derives hder] at hscan
  cases hscan
  exact Token.forall₂_literals hder

/-! ## Characters of numerals -/

namespace Numeral

variable {text : Text} {d : Char}

theorem not_mem_of_digits? {n : Nat} (hd : d.isDigit = false) (h : digits? text = some n) :
    d ∉ text := by
  intro hmem
  unfold digits? at h
  split at h
  · cases h
  · next hdigits =>
    have hall : text.all Char.isDigit := by simp_all
    rw [List.all_eq_true.1 hall d hmem] at hd
    cases hd

theorem not_mem_of_natural? {n : Nat} (hd : d.isDigit = false) (hplus : d ≠ '+')
    (h : natural? text = some n) : d ∉ text := by
  unfold natural? at h
  split at h
  · rw [List.mem_cons, not_or]
    exact ⟨hplus, not_mem_of_digits? hd h⟩
  · exact not_mem_of_digits? hd h

theorem not_mem_of_integer? {n : Int} (hd : d.isDigit = false) (hplus : d ≠ '+') (hminus : d ≠ '-')
    (h : integer? text = some n) : d ∉ text := by
  unfold integer? at h
  split at h
  · next rest =>
    rw [List.mem_cons, not_or]
    cases hdigits : digits? rest with
    | none => rw [hdigits] at h; cases h
    | some m => exact ⟨hminus, not_mem_of_digits? hd hdigits⟩
  · obtain ⟨m, hm, -⟩ := Option.map_eq_some_iff.1 h
    exact not_mem_of_natural? hd hplus hm

theorem not_mem_of_exponent? {n : Int} (hd : d.isDigit = false) (hmarks : d ∉ ['+', '-', 'e', 'E'])
    (h : exponent? text = some n) : d ∉ text := by
  simp only [List.mem_cons, List.not_mem_nil, or_false, not_or] at hmarks
  obtain ⟨hplus, hminus, he, hE⟩ := hmarks
  unfold exponent? at h
  split at h
  · exact List.not_mem_nil
  · next c rest =>
    split at h
    · next hc =>
      rw [List.mem_cons, not_or]
      refine ⟨?_, not_mem_of_integer? hd hplus hminus h⟩
      rintro rfl
      exact hc.elim he hE
    · cases h

theorem not_mem_takeWhile (hd : d.isDigit = false) (text : Text) :
    d ∉ text.takeWhile Char.isDigit := by
  intro hmem
  rw [List.mem_takeWhile_imp hmem] at hd
  cases hd

theorem not_mem_of_decimal? {n : Decimal} (hd : d.isDigit = false) (hpoint : d ≠ '.')
    (hmarks : d ∉ ['+', '-', 'e', 'E']) (h : decimal? text = some n) : d ∉ text := by
  rw [← text.takeWhile_append_dropWhile (p := Char.isDigit), List.mem_append, not_or]
  refine ⟨not_mem_takeWhile hd text, ?_⟩
  unfold decimal? at h
  simp only at h
  split at h
  · next rest heq =>
    split at h
    · cases h
    · obtain ⟨e, he, -⟩ := Option.map_eq_some_iff.1 h
      rw [heq, List.mem_cons, not_or, ← rest.takeWhile_append_dropWhile (p := Char.isDigit),
        List.mem_append, not_or]
      exact ⟨hpoint, not_mem_takeWhile hd rest, not_mem_of_exponent? hd hmarks he⟩
  · split at h
    · cases h
    · obtain ⟨e, he, -⟩ := Option.map_eq_some_iff.1 h
      exact not_mem_of_exponent? hd hmarks he

theorem not_mem_of_magnitude? {x : Float} (hd : d.isDigit = false) (hpoint : d ≠ '.')
    (hmarks : d ∉ ['+', '-', 'e', 'E']) (hnames : d.toLower ∉ ['i', 'n', 'f', 't', 'y', 'a'])
    (h : magnitude? text = some x) : d ∉ text := by
  have hname {name : String} (hname : ∀ c ∈ name.toList, c ∈ ['i', 'n', 'f', 't', 'y', 'a'])
      (htext : String.ofList (text.map Char.toLower) = name) : d ∉ text := fun hmem ↦ by
    subst htext
    rw [String.toList_ofList] at hname
    exact hnames (hname _ (List.mem_map_of_mem hmem))
  unfold magnitude? at h
  split at h
  · next htext => exact hname (by simp) htext
  · next htext => exact hname (by simp) htext
  · next htext => exact hname (by simp) htext
  · obtain ⟨n, hn, -⟩ := Option.map_eq_some_iff.1 h
    exact not_mem_of_decimal? hd hpoint hmarks hn

/-- Neither the mark between the parts of a bracket nor that between terms is part of a number. -/
theorem not_mem_of_float? {x : Float} (h : float? text = some x) : ',' ∉ text ∧ ';' ∉ text := by
  have hmagnitude {text : Text} {x : Float} (h : magnitude? text = some x) :
      ',' ∉ text ∧ ';' ∉ text :=
    ⟨not_mem_of_magnitude? rfl (by decide) (by decide) (by decide) h,
      not_mem_of_magnitude? rfl (by decide) (by decide) (by decide) h⟩
  unfold float? at h
  split at h
  · obtain ⟨y, hy, -⟩ := Option.map_eq_some_iff.1 h
    simpa using hmagnitude hy
  · simpa using hmagnitude h
  · exact hmagnitude h

end Numeral

/-! ## Numerals -/

namespace Text

/-- Whether a character ends a numeral: it has a meaning of its own, inside brackets or outside, or
it stands between the terms. -/
def delimits (c : Char) : Bool := c ∈ ',' :: ';' :: reserved

/-- The longest runs of other characters. -/
def numerals (text : Text) : List Text := (text.splitOnP delimits).filter (· ≠ [])

theorem numerals_append_cons {c : Char} (hc : delimits c) (left right : Text) :
    numerals (left ++ c :: right) = numerals left ++ numerals right := by
  rw [numerals, List.splitOnP_append_cons _ _ hc, List.filter_append]
  rfl

theorem numerals_cons {c : Char} (hc : delimits c) (text : Text) :
    numerals (c :: text) = numerals text := numerals_append_cons hc [] text

theorem numerals_eq_singleton {text : Text} (hne : text ≠ []) (h : ∀ c ∈ text, delimits c = false) :
    numerals text = [text] := by
  rw [numerals, List.splitOnP_eq_singleton h, List.filter_singleton, decide_eq_true hne, cond_true]

theorem delimits_of_mem {c : Char} (h : c ∈ reserved) : delimits c :=
  decide_eq_true (List.mem_cons_of_mem _ (List.mem_cons_of_mem _ h))

theorem delimits_unary (op : UnaryOp) : delimits op.char := by cases op <;> decide

theorem delimits_binary (op : BinaryOp) : delimits op.char := by cases op <;> decide

theorem map_numerals_of_derives {atom : ∀ kind, Text → Expr kind → Prop}
    (hatom : ∀ kind text (e : Expr kind), atom kind text e →
      (numerals text).map Numeral.float? = e.numbers.map some)
    {g : Grade} {kind : Kind} {text : Text} {e : Expr kind}
    (h : Derives Text.alphabet atom g text e) :
    (numerals text).map Numeral.float? = e.numbers.map some := by
  have hjoin (op : BinaryOp) {kind : Kind} {l r : Expr kind} {left right : Text}
      (hl : (numerals left).map Numeral.float? = l.numbers.map some)
      (hr : (numerals right).map Numeral.float? = r.numbers.map some) :
      (numerals (left ++ op.char :: right)).map Numeral.float? =
        (Expr.binary op l r).numbers.map some := by
    rw [numerals_append_cons (delimits_binary op), List.map_append, hl, hr, Expr.numbers,
      List.map_append]
  induction h with
  | atom h => exact hatom _ _ _ h
  | @unary op _ _ _ ih =>
    rw [Expr.numbers_unary, ← ih]
    exact congrArg _ (numerals_cons (delimits_unary op) _)
  | product _ ih => exact ih
  | mul _ _ ihl ihr => exact hjoin .mul ihl ihr
  | sum _ ih => exact ih
  | @additive op _ _ _ _ _ _ _ _ ihl ihr => exact hjoin op ihl ihr

theorem numerals_of_float? {text : Text} {x : Float} (hchars : ∀ c ∈ text, c ∉ reserved)
    (hx : Numeral.float? text = some x) : numerals text = [text] := by
  have hne : text ≠ [] := by
    rintro rfl
    cases hx
  refine numerals_eq_singleton hne fun c hc ↦ decide_eq_false fun hmem ↦ ?_
  simp only [List.mem_cons] at hmem
  rcases hmem with rfl | rfl | hmem
  · exact (Numeral.not_mem_of_float? hx).1 hc
  · exact (Numeral.not_mem_of_float? hx).2 hc
  · exact hchars c hc hmem

theorem map_numerals_of_simple {excluded : Text} (hreserved : ∀ c ∈ reserved, c ∈ excluded)
    {kind : Kind} {text : Text} {e : Expr kind} (h : Expr.Simple excluded kind text e) :
    (numerals text).map Numeral.float? = e.numbers.map some := by
  cases h with
  | var v =>
    rw [numerals_cons (delimits_of_mem (char_mem_reserved v))]
    rfl
  | @number text value slot hchars hvalue =>
    rw [numerals_of_float? (fun c hc hmem ↦ hchars c hc (hreserved c hmem)) hvalue,
      List.map_singleton, hvalue]
    rfl

theorem numerals_bracketText (left right : Text) :
    numerals (Expr.bracketText left right) = numerals left ++ numerals right := by
  rw [Expr.bracketText_eq, List.cons_append, numerals_cons (by decide),
    numerals_append_cons (by decide), numerals_append_cons (by decide)]
  exact List.append_nil _

end Text

namespace Expr

variable {kind : Kind} {text : Text} {e : Expr kind}

theorem ReadsPart.map_numerals (h : e.ReadsPart text) :
    text.numerals.map Numeral.float? = e.numbers.map some :=
  Text.map_numerals_of_derives
    (fun _ _ _ ↦ Text.map_numerals_of_simple fun _ ↦ List.mem_cons_of_mem _) h

theorem Reads.map_numerals (h : e.Reads text) :
    text.numerals.map Numeral.float? = e.numbers.map some := by
  refine Text.map_numerals_of_derives (fun kind text e h ↦ ?_) h
  cases h with
  | simple h => exact Text.map_numerals_of_simple (fun _ ↦ id) h
  | bracket slot hx hy =>
    rw [Text.numerals_bracketText, List.map_append, hx.map_numerals, hy.map_numerals, numbers,
      List.map_append]

end Expr

end OrbitPlot
