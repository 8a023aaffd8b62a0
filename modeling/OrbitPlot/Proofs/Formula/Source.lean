import OrbitPlot.Proofs.Formula.Unambiguous
import OrbitPlot.Proofs.Numeral.RoundTrip

/-!
# Reading sources

Brackets in which a variable occurs share a slot if their sources are the same text. A source may
have `-` inside a number, as in `1e-7`, and letters of operators, as in `inf`; so it is not a text
that could be read again. It still tells which expression it is the source of, since no number goes
on with an operator where another number ends.

## Main statement

`Expr.ReadsPart.eq_of_source_eq`: parts of brackets with one source are the same, slots apart.
-/

namespace OrbitPlot

open Double

/-! ## Texts of numbers -/

/-- What a text of a number looks like, as far as it matters for finding its end. -/
structure Text.IsNumber (text : Text) : Prop where
  /-- It starts with a digit or a capital letter, or it starts as a name does. -/
  starts : (∃ c rest, text = c :: rest ∧ (c.isDigit ∨ c = 'N')) ∨ ∃ rest, text = 'i' :: 'n' :: rest
  /-- There is no sign in it except behind the letter of the exponent. -/
  minus : ∀ u v, text = u ++ '-' :: v → u.getLast? = some 'e'
  /-- It does not end with that letter. -/
  last : text.getLast? ≠ some 'e'
  /-- Other characters with a meaning in formulas do not occur. -/
  chars : ∀ c ∈ text, c ∉ ['+', '*', ',', '[', ']']

/-- A number does not go on with a sign where another number ends. -/
theorem Text.IsNumber.not_append {text rest : Text} {op : BinaryOp} (h : text.IsNumber) :
    ¬Text.IsNumber (text ++ op.char :: rest) := by
  intro h'
  cases op with
  | add => exact h'.chars '+' (by simp [BinaryOp.char]) (by decide)
  | sub => exact h.last (h'.minus text rest rfl)
  | mul => exact h'.chars '*' (by simp [BinaryOp.char]) (by decide)

theorem Text.IsNumber.eq_of_append_eq {m n u v : Text} (hm : m.IsNumber) (hn : n.IsNumber)
    (hu : ∀ c ∈ u.head?, ∃ op : BinaryOp, c = op.char)
    (hv : ∀ c ∈ v.head?, ∃ op : BinaryOp, c = op.char) (heq : m ++ u = n ++ v) :
    m = n ∧ u = v := by
  rcases List.append_eq_append_iff.1 heq with ⟨w, rfl, rfl⟩ | ⟨w, rfl, rfl⟩
  · cases w with
    | nil => exact ⟨(List.append_nil m).symm, rfl⟩
    | cons c w =>
      obtain ⟨op, rfl⟩ := hu c rfl
      exact absurd hn hm.not_append
  · cases w with
    | nil => exact ⟨List.append_nil n, rfl⟩
    | cons c w =>
      obtain ⟨op, rfl⟩ := hv c rfl
      exact absurd hm hn.not_append

namespace Numeral

theorem Spells.exists_append {text : Text} {d : Decimal} (h : Spells text d) :
    ∃ front tail, text = front ++ tail ∧ (∀ c ∈ front, c.isDigit ∨ c = '.') ∧
      (tail = [] ∨ ∃ sign digits, tail = 'e' :: (sign ++ digits) ∧ (sign = [] ∨ sign = ['-']) ∧
        digits ≠ [] ∧ ∀ c ∈ digits, c.isDigit) := by
  obtain @⟨whole, point, fraction, tail, k, hwhole, hdigits, hpoint, htail⟩ := h
  obtain ⟨hdw, hdf⟩ := List.forall_mem_append.1 hdigits
  refine ⟨whole ++ point, tail, rfl, List.forall_mem_append.2 ⟨fun c hc ↦ .inl (hdw c hc), ?_⟩, ?_⟩
  · rcases hpoint with rfl | ⟨rfl, rfl⟩
    · exact List.forall_mem_cons.2 ⟨.inr rfl, fun c hc ↦ .inl (hdf c hc)⟩
    · nofun
  · rcases htail with rfl | ⟨rfl, rfl⟩
    · refine .inr ?_
      cases k with
      | ofNat n =>
        exact ⟨[], _, rfl, .inl rfl, Nat.toDigits_ne_nil, isDigit_toDigits⟩
      | negSucc n =>
        exact ⟨['-'], _, rfl, .inr rfl, Nat.toDigits_ne_nil, isDigit_toDigits⟩
    · exact .inl rfl

theorem Spells.isNumber {text : Text} {d : Decimal} (h : Spells text d) : text.IsNumber := by
  obtain ⟨c, rest, hcons, hc⟩ := h.exists_cons
  obtain ⟨front, tail, htext, hfront, htail⟩ := h.exists_append
  have hfront {c : Char} (hc : c.isDigit = false) (hpoint : c ≠ '.') : c ∉ front := fun hmem ↦ by
    rcases hfront c hmem with h | h
    · simp [h] at hc
    · exact hpoint h
  have hdigit {c : Char} {digits : Text} (h : ∀ c ∈ digits, c.isDigit) (hc : c.isDigit = false) :
      c ∉ digits := fun hmem ↦ by simp [h c hmem] at hc
  have hminus : '-' ∉ front := hfront rfl (by decide)
  refine ⟨.inl ⟨c, rest, hcons, .inl hc⟩, fun u v heq ↦ ?_, fun hlast ↦ ?_, ?_⟩
  -- there is no sign but that of the exponent, which stands right behind its letter
  · have hmem : '-' ∈ text := heq ▸ List.mem_append_right u List.mem_cons_self
    rw [htext] at heq hmem
    rcases htail with rfl | ⟨sign, digits, rfl, rfl | rfl, hne, hdigits⟩
    · simp [hminus] at hmem
    · simp [hminus, hdigit hdigits] at hmem
    · have heq : (front ++ ['e']) ++ '-' :: digits = u ++ '-' :: v := by simpa using heq
      have hu := ((List.append_cons_inj_of_notMem (by simp [hminus]) (hdigit hdigits rfl)).1 heq).1
      rw [← hu, List.getLast?_concat]
  · rw [htext] at hlast
    rcases htail with rfl | ⟨sign, digits, rfl, -, hne, hdigits⟩
    · rw [List.append_nil] at hlast
      exact hfront rfl (by decide) (List.mem_of_getLast? hlast)
    · rw [← List.cons_append, ← List.append_assoc, List.getLast?_append_of_ne_nil _ hne] at hlast
      exact hdigit hdigits rfl (List.mem_of_getLast? hlast)
  · intro c hmem hc
    have hnot : ∀ c ∈ ['+', '*', ',', '[', ']'],
        c.isDigit = false ∧ c ≠ '.' ∧ c ≠ 'e' ∧ c ≠ '-' := by simp
    have hnot := hnot c hc
    rw [htext] at hmem
    rcases htail with rfl | ⟨sign, digits, rfl, hsign, -, hdigits⟩
    · rw [List.append_nil] at hmem
      exact hfront hnot.1 hnot.2.1 hmem
    · rcases hsign with rfl | rfl <;> simp [hfront, hdigit hdigits, hnot] at hmem

theorem isNumber_float (l : Layout) {x : Float} (hx : Unsigned x) : (l.float x).IsNumber := by
  have hminus {text : Text} (h : '-' ∉ text) (u v : Text) (heq : text = u ++ '-' :: v) :
      u.getLast? = some 'e' := absurd (heq ▸ List.mem_append_right u List.mem_cons_self) h
  by_cases hnan : x.isNaN
  · rw [Layout.float, if_pos hnan]
    exact ⟨.inl ⟨'N', ['a', 'N'], rfl, .inr rfl⟩, hminus (by decide), by decide, by simp⟩
  · have hfloat : l.float x = l.magnitude x := by
      rw [Layout.float, if_neg hnan, if_pos (congrArg _ (abs_eq_self hx).symm)]
    rw [hfloat]
    rcases magnitude_cases l hx (Bool.eq_false_iff.2 hnan) with ⟨-, htext⟩ | ⟨d, hspells, -⟩
    · rw [htext]
      exact ⟨.inr ⟨['f'], rfl⟩, hminus (by decide), by decide, by simp⟩
    · exact hspells.isNumber

end Numeral

/-! ## Rows of sources -/

namespace Token

/-- An operator or a variable, which is spelled with one letter. -/
def IsLetter : Token → Prop
  | binary _ | unary _ | var _ => True
  | bracketed _ | numeral _ => False

/-- The tokens that make up a source: a number is followed by a sign, if by anything. -/
inductive Written : List Token → Prop
  | nil : Written []
  | letter {t : Token} {tokens : List Token} (ht : t.IsLetter) (h : Written tokens) :
    Written (t :: tokens)
  | number {x : Float} {tokens : List Token} (hx : Unsigned x)
    (hnext : ∀ t ∈ tokens.head?, ∃ op, t = binary op) (h : Written tokens) :
    Written (numeral (Numeral.plain.float x) :: tokens)

/-- The token of a letter. -/
private def ofLetter (c : Char) : Token :=
  match Mark.ofChar c with
  | .binary op => binary op
  | .unary op => unary op
  | .var v => var v
  | _ => numeral [c]

theorem IsLetter.exists_char {t : Token} (h : t.IsLetter) :
    ∃ c ∈ Text.reserved, t.spelling = [c] ∧ t = ofLetter c := by
  cases t with
  | binary op =>
    refine ⟨op.char, Text.mem_reserved_iff.2 (.inr (.inr (.inl ⟨op, rfl⟩))), rfl, ?_⟩
    rw [ofLetter, Mark.ofChar_binary]
  | unary op =>
    refine ⟨op.char, Text.mem_reserved_iff.2 (.inr (.inr (.inr (.inl ⟨op, rfl⟩)))), rfl, ?_⟩
    rw [ofLetter, Mark.ofChar_unary]
  | var v =>
    refine ⟨v.char, Text.char_mem_reserved v, rfl, ?_⟩
    rw [ofLetter, Mark.ofChar_var]
  | bracketed text => exact h.elim
  | numeral text => exact h.elim

theorem Written.eq_nil {tokens : List Token} (h : Written tokens) (hnil : spell tokens = []) :
    tokens = [] := by
  cases h with
  | nil => rfl
  | letter ht h =>
    obtain ⟨c, -, hspelling, -⟩ := ht.exists_char
    rw [spell_cons, hspelling] at hnil
    cases hnil
  | @number x tokens hx hnext h =>
    rw [spell_cons, spelling] at hnil
    rcases (Numeral.isNumber_float Numeral.plain hx).starts with ⟨c, r, htext, -⟩ | ⟨r, htext⟩
    · rw [htext] at hnil
      cases hnil
    · rw [htext] at hnil
      cases hnil

theorem Written.ne_cons {tokens : List Token} (h : Written tokens) (rest : Text) :
    spell tokens ≠ 'n' :: rest := by
  intro hn
  cases h with
  | nil => cases hn
  | letter ht h =>
    obtain ⟨c, hc, hspelling, -⟩ := ht.exists_char
    rw [spell_cons, hspelling] at hn
    cases hn
    exact absurd hc (by decide)
  | @number x tokens hx hnext h =>
    rw [spell_cons, spelling] at hn
    rcases (Numeral.isNumber_float Numeral.plain hx).starts with ⟨c, r, htext, hc⟩ | ⟨r, htext⟩
    · rw [htext] at hn
      cases hn
      rcases hc with hc | hc <;> exact absurd hc (by decide)
    · rw [htext] at hn
      cases hn

/-- A letter cannot be taken for the start of a number, because of what follows it. -/
theorem Written.cons_ne_append {tokens : List Token} (h : Written tokens) {c : Char}
    (hc : c ∈ Text.reserved) {text : Text} (htext : text.IsNumber) (rest : Text) :
    c :: spell tokens ≠ text ++ rest := by
  intro heq
  rcases htext.starts with ⟨d, r, rfl, hd⟩ | ⟨r, rfl⟩
  · have hreserved : ∀ c ∈ Text.reserved, ¬(c.isDigit ∨ c = 'N') := by simp [Text.reserved]
    exact hreserved c hc ((List.cons.inj heq).1 ▸ hd)
  · exact h.ne_cons _ (List.cons.inj heq).2

private theorem head?_spell {tokens : List Token}
    (hnext : ∀ t ∈ tokens.head?, ∃ op, t = .binary op) :
    ∀ c ∈ (spell tokens).head?, ∃ op : BinaryOp, c = op.char := by
  cases tokens with
  | nil => nofun
  | cons t tokens =>
    obtain ⟨op, rfl⟩ := hnext t rfl
    rintro _ ⟨⟩
    exact ⟨op, rfl⟩

/-- Tokens that make up a source can be told from the source. -/
theorem Written.eq_of_spell_eq {tokens tokens' : List Token} (h : Written tokens)
    (h' : Written tokens') (heq : spell tokens = spell tokens') : tokens = tokens' := by
  -- one source is followed token by token, and the other has to start with the same token each time
  induction h generalizing tokens' with
  | nil => exact (h'.eq_nil heq.symm).symm
  | letter ht h ih =>
    obtain ⟨c, hc, hspelling, rfl⟩ := ht.exists_char
    rw [spell_cons, hspelling] at heq
    cases h' with
    | nil => cases heq
    | letter ht' h' =>
      obtain ⟨c', -, hspelling', rfl⟩ := ht'.exists_char
      rw [spell_cons, hspelling'] at heq
      obtain ⟨rfl, hrest⟩ := List.cons.inj heq
      rw [ih h' hrest]
    | number hy hnext' h' =>
      exact absurd heq (h.cons_ne_append hc (Numeral.isNumber_float _ hy) _)
  | number hx hnext h ih =>
    cases h' with
    | nil => cases (Written.number hx hnext h).eq_nil heq
    | letter ht' h' =>
      obtain ⟨c', hc', hspelling', rfl⟩ := ht'.exists_char
      rw [spell_cons, spell_cons, hspelling'] at heq
      exact absurd heq.symm (h'.cons_ne_append hc' (Numeral.isNumber_float _ hx) _)
    | number hy hnext' h' =>
      rw [spell_cons, spell_cons] at heq
      obtain ⟨htext, hrest⟩ := (Numeral.isNumber_float _ hx).eq_of_append_eq
        (Numeral.isNumber_float _ hy) (head?_spell hnext) (head?_spell hnext') heq
      rw [htext, ih h' hrest]

theorem Written.not_mem_spell {tokens : List Token} (h : Written tokens) :
    ',' ∉ spell tokens := by
  induction h with
  | nil => nofun
  | letter ht _ ih =>
    obtain ⟨c, hc, hspelling, -⟩ := ht.exists_char
    rw [spell_cons, hspelling, List.singleton_append, List.mem_cons, not_or]
    exact ⟨fun h ↦ absurd (h ▸ hc) (by decide), ih⟩
  | @number x tokens hx hnext _ ih =>
    rw [spell_cons, List.mem_append, not_or]
    exact ⟨fun h ↦ (Numeral.isNumber_float Numeral.plain hx).chars ',' h (by decide), ih⟩

theorem Written.append_binary {left right : List Token} (op : BinaryOp) (hl : Written left)
    (hr : Written right) : Written (left ++ binary op :: right) := by
  induction hl with
  | nil => exact .letter trivial hr
  | letter ht _ ih => exact .letter ht ih
  | @number x tokens hx hnext _ ih =>
    refine .number hx ?_ ih
    cases tokens with
    | nil =>
      rintro _ ⟨⟩
      exact ⟨op, rfl⟩
    | cons t tokens => exact hnext

/-- The tokens that an atom has in a source. -/
inductive SourceAtom : ∀ kind, List Token → Expr kind → Prop
  /-- A variable has its letter. -/
  | var (v : Variable) : SourceAtom .complex [.var v] (.var v)
  /-- A number has its text. -/
  | number {x : Float} (slot : Nat) (hx : Unsigned x) :
    SourceAtom .real [.numeral (Numeral.plain.float x)] (.number slot x)

theorem operand_eq_of_source {kind kind' : Kind} {tokens : List Token} {e : Expr kind}
    {e' : Expr kind'} (h : Derives alphabet SourceAtom .sum tokens e)
    (h' : Derives alphabet SourceAtom .sum tokens e') : e.operand = e'.operand := by
  refine operand_eq_of_derives ?_ ?_ h h'
  · rintro kind tokens e (v | ⟨slot, hx⟩)
    · exact ⟨_, rfl, trivial⟩
    · exact ⟨_, rfl, trivial⟩
  · intro t kind kind' e e' h h'
    cases h with
    | var v =>
      cases h'
      rfl
    | @number x slot hx =>
      generalize htext : Numeral.plain.float x = text at h'
      cases h' with
      | @number y slot' hy =>
        -- a number is known from its text, since it can be read from it
        have hfloat := Numeral.float?_float Numeral.plain x
        rw [htext, Numeral.float?_float] at hfloat
        cases hfloat
        rfl

end Token

namespace Expr

theorem source_unary {op : UnaryOp} {e : Expr op.operandKind} :
    (Expr.unary op e).source = op.char :: e.source := by
  cases op <;> rfl

variable {kind : Kind} {e e' : Expr kind} {text text' : Text}

/-- What is read from a text without brackets has a source that can be taken apart. -/
private theorem exists_written {g : Grade}
    (h : Derives Text.alphabet (Simple (',' :: Text.reserved)) g text e) :
    ∃ tokens, Token.Written tokens ∧ Token.spell tokens = e.source ∧
      Derives Token.alphabet Token.SourceAtom g tokens e := by
  induction h with
  | atom h =>
    cases h with
    | var v => exact ⟨[.var v], .letter trivial .nil, rfl, .atom (.var v)⟩
    | number slot hchars hvalue =>
      have hx := Numeral.unsigned_of_float? (fun hmem ↦ hchars '-' hmem (by decide)) hvalue
      exact ⟨_, .number hx (by rintro _ ⟨⟩) .nil, List.append_nil _, .atom (.number slot hx)⟩
  | @unary op _ _ _ ih =>
    obtain ⟨tokens, hwritten, hspell, hder⟩ := ih
    refine ⟨.unary op :: tokens, .letter trivial hwritten, ?_, .unary hder⟩
    rw [source_unary, Token.spell_cons, hspell]
    rfl
  | product _ ih =>
    obtain ⟨tokens, hwritten, hspell, hder⟩ := ih
    exact ⟨tokens, hwritten, hspell, .product hder⟩
  | mul _ _ ihl ihr =>
    obtain ⟨left, hwl, hsl, hdl⟩ := ihl
    obtain ⟨right, hwr, hsr, hdr⟩ := ihr
    refine ⟨left ++ .binary .mul :: right, hwl.append_binary _ hwr, ?_, .mul hdl hdr⟩
    rw [source, ← hsl, ← hsr]
    exact List.flatMap_append
  | sum _ ih =>
    obtain ⟨tokens, hwritten, hspell, hder⟩ := ih
    exact ⟨tokens, hwritten, hspell, .sum hder⟩
  | @additive op _ _ _ _ _ hop _ _ ihl ihr =>
    obtain ⟨left, hwl, hsl, hdl⟩ := ihl
    obtain ⟨right, hwr, hsr, hdr⟩ := ihr
    refine ⟨left ++ .binary op :: right, hwl.append_binary _ hwr, ?_, .additive hop hdl hdr⟩
    rw [source, ← hsl, ← hsr]
    exact List.flatMap_append

theorem ReadsPart.eq_of_source_eq (h : e.ReadsPart text) (h' : e'.ReadsPart text')
    (heq : e.source = e'.source) : e.unslotted = e'.unslotted := by
  obtain ⟨tokens, hwritten, hspell, hder⟩ := exists_written h
  obtain ⟨tokens', hwritten', hspell', hder'⟩ := exists_written h'
  obtain rfl := hwritten.eq_of_spell_eq hwritten' (hspell.trans (heq.trans hspell'.symm))
  exact operand_inj.1 (Token.operand_eq_of_source hder hder')

theorem eq_of_bracketText_eq {x y x' y' : Expr .real} {left right left' right' : Text}
    (hx : x.ReadsPart left) (hy : y.ReadsPart right) (hx' : x'.ReadsPart left')
    (hy' : y'.ReadsPart right')
    (heq : bracketText x.source y.source = bracketText x'.source y'.source) :
    x.unslotted = x'.unslotted ∧ y.unslotted = y'.unslotted := by
  have hcomma {x : Expr .real} {text : Text} (h : x.ReadsPart text) : ',' ∉ x.source := by
    obtain ⟨tokens, hwritten, hspell, -⟩ := exists_written h
    exact hspell ▸ hwritten.not_mem_spell
  obtain ⟨hleft, hright⟩ := bracketText_inj (hcomma hx) (hcomma hy) heq
  exact ⟨hx.eq_of_source_eq hx' hleft, hy.eq_of_source_eq hy' hright⟩

end Expr

end OrbitPlot
