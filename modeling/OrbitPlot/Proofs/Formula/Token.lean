import Mathlib.Data.List.Chain
import OrbitPlot.Formula.Token
import OrbitPlot.Proofs.Formula.Grammar
import OrbitPlot.Proofs.Outcome

/-!
# Scanning undoes spelling

The scanner accepts exactly the spellings of the token lists it can produce, and each spelling is
scanned back into the list that it spells.

## Main statements

* `outside_eq_ok_iff`: a text is scanned into a list of tokens if and only if the list is
  `Canonical` and spells the text;
* `scan_eq_ok_iff`: the same of a whole term, which may not begin with a sign either.
-/

namespace OrbitPlot

/-! ## Dividing text -/

theorem Text.splitOn_eq_pair_iff {c : Char} {text left right : Text} :
    text.splitOn c = [left, right] ↔ text = left ++ c :: right ∧ c ∉ left ∧ c ∉ right := by
  constructor
  · intro h
    obtain rfl : left ++ c :: right = text := by
      have hjoin : [c].intercalate (text.splitOn c) = text := List.intercalate_splitOn c
      rw [← hjoin, h]
      simp [List.intercalate]
    have hparts {u : Text} : 0 < (u.splitOn c).length :=
      List.length_pos_iff.2 (List.splitOn_ne_nil c u)
    -- each further separator would make a further part, and there are two
    rw [List.splitOn_append_cons_self] at h
    have hlen := congrArg List.length h
    rw [List.length_append] at hlen
    refine ⟨rfl, fun hc ↦ ?_, fun hc ↦ ?_⟩
    all_goals
      obtain ⟨u, v, rfl⟩ := List.append_of_mem hc
      rw [List.splitOn_append_cons_self, List.length_append] at hlen
      have := hparts (u := u)
      have := hparts (u := v)
    · have := hparts (u := right)
      simp at hlen
      omega
    · have := hparts (u := left)
      simp at hlen
      omega
  · rintro ⟨rfl, hl, hr⟩
    rw [List.splitOn_append_cons_self, List.splitOn_eq_singleton hl, List.splitOn_eq_singleton hr]
    rfl

/-! ## Marks -/

theorem Text.mem_reserved_iff {c : Char} :
    c ∈ Text.reserved ↔ c = '[' ∨ c = ']' ∨ (∃ op : BinaryOp, c = op.char) ∨
      (∃ op : UnaryOp, c = op.char) ∨ ∃ v : Variable, c = v.char := by
  constructor
  · intro h
    simp only [Text.reserved, List.mem_cons, List.not_mem_nil, or_false] at h
    rcases h with rfl | rfl | rfl | rfl | rfl | rfl | rfl | rfl | rfl | rfl | rfl | rfl
    · exact .inr (.inr (.inl ⟨.add, rfl⟩))
    · exact .inr (.inr (.inl ⟨.sub, rfl⟩))
    · exact .inr (.inr (.inl ⟨.mul, rfl⟩))
    · exact .inr (.inr (.inr (.inl ⟨.abs, rfl⟩)))
    · exact .inr (.inr (.inr (.inl ⟨.re, rfl⟩)))
    · exact .inr (.inr (.inr (.inl ⟨.im, rfl⟩)))
    · exact .inr (.inr (.inr (.inr ⟨.current, rfl⟩)))
    · exact .inr (.inr (.inr (.inr ⟨.previous, rfl⟩)))
    · exact .inr (.inr (.inr (.inr ⟨.first, rfl⟩)))
    · exact .inr (.inr (.inr (.inr ⟨.selected, rfl⟩)))
    · exact .inl rfl
    · exact .inr (.inl rfl)
  · rintro (rfl | rfl | ⟨op, rfl⟩ | ⟨op, rfl⟩ | ⟨v, rfl⟩)
    · decide
    · decide
    · cases op <;> decide
    · cases op <;> decide
    · cases v <;> decide

theorem Variable.char_inj {v w : Variable} : v.char = w.char ↔ v = w := by
  cases v <;> cases w <;> decide

theorem Text.char_mem_reserved (v : Variable) : v.char ∈ reserved :=
  mem_reserved_iff.2 (.inr (.inr (.inr (.inr ⟨v, rfl⟩))))

namespace Mark

theorem ofChar_binary (op : BinaryOp) : ofChar op.char = .binary op := by
  cases op <;> rfl

theorem ofChar_unary (op : UnaryOp) : ofChar op.char = .unary op := by
  cases op <;> rfl

theorem ofChar_var (v : Variable) : ofChar v.char = .var v := by
  cases v <;> rfl

theorem ofChar_other {c : Char} (h : c ∉ Text.reserved) : ofChar c = .other := by
  rw [Text.mem_reserved_iff] at h
  simp only [not_or, not_exists] at h
  obtain ⟨hopen, hclose, hbinary, hunary, hvar⟩ := h
  have hb : BinaryOp.ofChar? c = none := by
    simpa [Option.eq_none_iff_forall_ne_some, BinaryOp.ofChar?_eq_some_iff] using hbinary
  have hu : UnaryOp.ofChar? c = none := by
    simpa [Option.eq_none_iff_forall_ne_some, UnaryOp.ofChar?_eq_some_iff] using hunary
  have hv : Variable.ofChar? c = none := by
    simpa [Option.eq_none_iff_forall_ne_some, Variable.ofChar?_eq_some_iff] using hvar
  rw [ofChar, if_neg hopen, if_neg hclose, hb, hu, hv]

end Mark

namespace Token

/-! ## What scanning can produce -/

/-- A token as scanning can produce it. -/
inductive Sound : Token → Prop
  | binary (op : BinaryOp) : Sound (.binary op)
  | unary (op : UnaryOp) : Sound (.unary op)
  | var (v : Variable) : Sound (.var v)
  | bracketed {body : Text} (hopen : '[' ∉ body) (hclose : ']' ∉ body) :
    Sound (.bracketed ('[' :: body ++ [']']))
  | numeral {text : Text} (hne : text ≠ []) (h : ∀ c ∈ text, c ∉ Text.reserved) :
    Sound (.numeral text)

/-- Two runs of characters that stand next to each other would be one run. -/
def Apart : Token → Token → Prop
  | numeral _, numeral _ => False
  | _, _ => True

/-- Whether a token may end a term. -/
def Ends : Token → Prop
  | binary _ | unary _ => False
  | _ => True

/-- A list of tokens that scanning can produce. -/
inductive Canonical : List Token → Prop
  | nil : Canonical []
  | last {t : Token} (hsound : t.Sound) (hends : t.Ends) : Canonical [t]
  | cons {t t' : Token} {tokens : List Token} (hsound : t.Sound) (hapart : t.Apart t')
    (htokens : Canonical (t' :: tokens)) : Canonical (t :: t' :: tokens)

/-- The spelling of a list of tokens. -/
def spell (tokens : List Token) : Text := tokens.flatMap spelling

theorem spell_cons (t : Token) (tokens : List Token) :
    spell (t :: tokens) = t.spelling ++ spell tokens := List.flatMap_cons

theorem Sound.spelling_ne_nil {t : Token} (h : t.Sound) : t.spelling ≠ [] := by
  cases h with
  | numeral hne _ => exact hne
  | _ => exact List.cons_ne_nil _ _

namespace Canonical

theorem sound {tokens : List Token} (h : Canonical tokens) : ∀ t ∈ tokens, t.Sound := by
  induction h with
  | nil => nofun
  | last hsound _ => simpa using hsound
  | cons hsound _ _ ih => exact List.forall_mem_cons.2 ⟨hsound, ih⟩

theorem spell_ne_nil {tokens : List Token} (h : Canonical tokens) (hne : tokens ≠ []) :
    spell tokens ≠ [] := by
  obtain ⟨t, tokens, rfl⟩ := List.exists_cons_of_ne_nil hne
  rw [spell_cons]
  exact List.append_ne_nil_of_left_ne_nil (h.sound t List.mem_cons_self).spelling_ne_nil _

/-- A list is canonical by its tokens one by one, by each two neighbours and by its last token. -/
theorem iff_isChain {tokens : List Token} : Canonical tokens ↔
    (∀ t ∈ tokens, t.Sound) ∧ tokens.IsChain Apart ∧ ∀ t ∈ tokens.getLast?, t.Ends := by
  constructor
  · intro h
    refine ⟨h.sound, ?_⟩
    induction h with
    | nil => exact ⟨.nil, nofun⟩
    | last _ hends => exact ⟨.singleton _, by simpa using hends⟩
    | cons _ hapart _ ih =>
      rw [List.isChain_cons_cons, List.getLast?_cons_cons]
      exact ⟨⟨hapart, ih.1⟩, ih.2⟩
  · rintro ⟨hsound, hchain, hlast⟩
    induction hchain with
    | nil => exact .nil
    | singleton t => exact .last (hsound t List.mem_cons_self) (hlast t rfl)
    | cons_cons hapart _ ih =>
      obtain ⟨ht, htokens⟩ := List.forall_mem_cons.1 hsound
      rw [List.getLast?_cons_cons] at hlast
      exact .cons ht hapart (ih htokens hlast)

theorem cons_of {t : Token} {tokens : List Token} (h : Canonical tokens) (hsound : t.Sound)
    (hends : tokens ≠ [] ∨ t.Ends) (hapart : ∀ t' ∈ tokens.head?, t.Apart t') :
    Canonical (t :: tokens) := by
  cases tokens with
  | nil => exact .last hsound (hends.resolve_left (by simp))
  | cons t' tokens => exact .cons hsound (hapart t' rfl) h

end Canonical

/-! ## Equations of the scanner -/

theorem outside_binary (op : BinaryOp) {rest : Text} (h : rest ≠ []) :
    outside (op.char :: rest) = (binary op :: ·) <$> outside rest := by
  rw [outside, Mark.ofChar_binary]
  simp only [List.isEmpty_eq_false_iff.2 h]
  cases outside rest <;> rfl

theorem outside_unary (op : UnaryOp) {rest : Text} (h : rest ≠ []) :
    outside (op.char :: rest) = (unary op :: ·) <$> outside rest := by
  rw [outside, Mark.ofChar_unary]
  simp only [List.isEmpty_eq_false_iff.2 h]
  cases outside rest <;> rfl

theorem outside_binary_eq_ok {op : BinaryOp} {rest : Text} {tokens : List Token}
    (h : outside (op.char :: rest) = .ok tokens) :
    ∃ tokens', rest ≠ [] ∧ outside rest = .ok tokens' ∧ tokens = binary op :: tokens' := by
  by_cases hrest : rest = []
  · subst hrest
    rw [outside, Mark.ofChar_binary] at h
    cases h
  · rw [outside_binary op hrest, Except.map_eq_ok_iff] at h
    obtain ⟨tokens', htokens, rfl⟩ := h
    exact ⟨tokens', hrest, htokens, rfl⟩

theorem outside_unary_eq_ok {op : UnaryOp} {rest : Text} {tokens : List Token}
    (h : outside (op.char :: rest) = .ok tokens) :
    ∃ tokens', rest ≠ [] ∧ outside rest = .ok tokens' ∧ tokens = unary op :: tokens' := by
  by_cases hrest : rest = []
  · subst hrest
    rw [outside, Mark.ofChar_unary] at h
    cases h
  · rw [outside_unary op hrest, Except.map_eq_ok_iff] at h
    obtain ⟨tokens', htokens, rfl⟩ := h
    exact ⟨tokens', hrest, htokens, rfl⟩

theorem outside_var (v : Variable) (rest : Text) :
    outside (v.char :: rest) = (var v :: ·) <$> outside rest := by
  rw [outside, Mark.ofChar_var]
  cases outside rest <;> rfl

theorem outside_other {c : Char} (h : c ∉ Text.reserved) (rest : Text) :
    outside (c :: rest) = extend c <$> outside rest := by
  rw [outside, Mark.ofChar_other h]
  cases outside rest <;> rfl

theorem outside_opening (rest : Text) :
    outside ('[' :: rest) = (fun p ↦ bracketed ('[' :: p.1) :: p.2) <$> inside rest := by
  rw [outside, show Mark.ofChar '[' = .opening from rfl]
  cases inside rest <;> rfl

theorem inside_closing (rest : Text) :
    inside (']' :: rest) = (fun tokens ↦ ([']'], tokens)) <$> outside rest := by
  rw [inside, show Mark.ofChar ']' = .closing from rfl]
  cases outside rest <;> rfl

theorem inside_cons {c : Char} (hopen : c ≠ '[') (hclose : c ≠ ']') (rest : Text) :
    inside (c :: rest) = (fun p ↦ (c :: p.1, p.2)) <$> inside rest := by
  have hmark : Mark.ofChar c ≠ .opening ∧ Mark.ofChar c ≠ .closing := by
    unfold Mark.ofChar
    rw [if_neg hopen, if_neg hclose]
    constructor <;> split <;> nofun
  rw [inside]
  cases hm : Mark.ofChar c with
  | opening => exact absurd hm hmark.1
  | closing => exact absurd hm hmark.2
  | _ => cases inside rest <;> rfl

/-- What is inside a bracket ends at the first bracket that closes. -/
theorem inside_eq_ok_iff {text body : Text} {tokens : List Token} :
    inside text = .ok (body, tokens) ↔
      ∃ inner rest, text = inner ++ ']' :: rest ∧ '[' ∉ inner ∧ ']' ∉ inner ∧
        body = inner ++ [']'] ∧ outside rest = .ok tokens := by
  induction text generalizing body with
  | nil => simp [inside]
  | cons c text ih =>
    by_cases hopen : c = '['
    · subst hopen
      refine ⟨nofun, ?_⟩
      rintro ⟨_ | ⟨d, inner⟩, rest, htext, hinner, -⟩
      · cases htext
      · cases htext
        simp at hinner
    by_cases hclose : c = ']'
    · subst hclose
      rw [inside_closing, Except.map_eq_ok_iff]
      constructor
      · rintro ⟨tokens, htokens, heq⟩
        cases heq
        exact ⟨[], text, rfl, List.not_mem_nil, List.not_mem_nil, rfl, htokens⟩
      · rintro ⟨_ | ⟨d, inner⟩, rest, htext, -, hinner, rfl, htokens⟩
        · cases htext
          exact ⟨tokens, htokens, rfl⟩
        · cases htext
          simp at hinner
    rw [inside_cons hopen hclose, Except.map_eq_ok_iff]
    constructor
    · rintro ⟨⟨body, tokens⟩, hbody, heq⟩
      cases heq
      obtain ⟨inner, rest, rfl, hin, hin', rfl, htokens⟩ := ih.1 hbody
      refine ⟨c :: inner, rest, rfl, ?_, ?_, rfl, htokens⟩
      · exact List.not_mem_cons_of_ne_of_not_mem (Ne.symm hopen) hin
      · exact List.not_mem_cons_of_ne_of_not_mem (Ne.symm hclose) hin'
    · rintro ⟨_ | ⟨d, inner⟩, rest, htext, hin, hin', rfl, htokens⟩
      · cases htext
        exact absurd rfl hclose
      · cases htext
        refine ⟨(inner ++ [']'], tokens), ih.2 ⟨inner, rest, rfl, ?_, ?_, rfl, htokens⟩, rfl⟩
        · exact List.not_mem_of_not_mem_cons hin
        · exact List.not_mem_of_not_mem_cons hin'

/-! ## From text to tokens -/

theorem Canonical.extend {c : Char} (hc : c ∉ Text.reserved) {tokens : List Token}
    (h : Canonical tokens) : Canonical (extend c tokens) := by
  have hc' : ∀ {text : Text}, (∀ d ∈ text, d ∉ Text.reserved) → ∀ d ∈ c :: text,
      d ∉ Text.reserved := fun htext ↦ List.forall_mem_cons.2 ⟨hc, htext⟩
  unfold Token.extend
  split
  -- a run that stands in front takes the character in
  · cases h with
    | last hsound hends =>
      cases hsound with
      | numeral hne htext => exact .last (.numeral (List.cons_ne_nil _ _) (hc' htext)) trivial
    | @cons _ t' _ hsound hapart htokens =>
      cases hsound with
      | numeral hne htext =>
        refine .cons (.numeral (List.cons_ne_nil _ _) (hc' htext)) ?_ htokens
        cases t' <;> exact hapart
  -- otherwise the character is a run of its own
  · next hnumeral =>
    refine h.cons_of (.numeral (List.cons_ne_nil _ _) (hc' nofun)) (.inr trivial) ?_
    intro t' ht'
    cases t' with
    | numeral text =>
      obtain ⟨rest, rfl⟩ : ∃ rest, tokens = .numeral text :: rest := by
        cases tokens with
        | nil => cases ht'
        | cons t tokens => cases ht'; exact ⟨tokens, rfl⟩
      exact absurd rfl (hnumeral text rest)
    | _ => trivial

theorem spell_extend (c : Char) (tokens : List Token) :
    spell (extend c tokens) = c :: spell tokens := by
  unfold extend
  split <;> rfl

theorem canonical_of_outside {text : Text} {tokens : List Token} (h : outside text = .ok tokens) :
    Canonical tokens ∧ spell tokens = text := by
  -- what follows a bracket is not the tail of the text, so the induction is on its length
  induction hn : text.length using Nat.strongRecOn generalizing text tokens with
  | _ n ih =>
  subst hn
  match text with
  | [] =>
    cases h
    exact ⟨.nil, rfl⟩
  | c :: rest =>
    have ih' {tokens} := @ih rest.length (Nat.lt_succ_self _) rest tokens
    by_cases hc : c ∈ Text.reserved
    · rcases Text.mem_reserved_iff.1 hc with rfl | rfl | ⟨op, rfl⟩ | ⟨op, rfl⟩ | ⟨v, rfl⟩
      · rw [outside_opening, Except.map_eq_ok_iff] at h
        obtain ⟨⟨body, tokens⟩, hbody, rfl⟩ := h
        obtain ⟨inner, rest, rfl, hopen, hclose, rfl, htokens⟩ := inside_eq_ok_iff.1 hbody
        obtain ⟨hcan, rfl⟩ := ih rest.length (by simp; omega) htokens rfl
        refine ⟨hcan.cons_of (.bracketed hopen hclose) (.inr trivial) fun _ _ ↦ trivial, ?_⟩
        simp [spell, spelling]
      · rw [outside, show Mark.ofChar ']' = .closing from rfl] at h
        cases h
      · obtain ⟨tokens, hrest, htokens, rfl⟩ := outside_binary_eq_ok h
        obtain ⟨hcan, hspell⟩ := ih' htokens rfl
        have hne : tokens ≠ [] := by
          rintro rfl
          exact hrest hspell.symm
        exact ⟨hcan.cons_of (.binary op) (.inl hne) fun _ _ ↦ trivial, congrArg _ hspell⟩
      · obtain ⟨tokens, hrest, htokens, rfl⟩ := outside_unary_eq_ok h
        obtain ⟨hcan, hspell⟩ := ih' htokens rfl
        have hne : tokens ≠ [] := by
          rintro rfl
          exact hrest hspell.symm
        exact ⟨hcan.cons_of (.unary op) (.inl hne) fun _ _ ↦ trivial, congrArg _ hspell⟩
      · rw [outside_var, Except.map_eq_ok_iff] at h
        obtain ⟨tokens, htokens, rfl⟩ := h
        obtain ⟨hcan, hspell⟩ := ih' htokens rfl
        exact ⟨hcan.cons_of (.var v) (.inr trivial) fun _ _ ↦ trivial, congrArg _ hspell⟩
    · rw [outside_other hc, Except.map_eq_ok_iff] at h
      obtain ⟨tokens, htokens, rfl⟩ := h
      obtain ⟨hcan, hspell⟩ := ih' htokens rfl
      exact ⟨hcan.extend hc, by rw [spell_extend, hspell]⟩

/-! ## From tokens to text -/

/-- A run of characters without meaning comes out as one token in front of a token that is no such
run. -/
theorem outside_numeral {text rest : Text} {tokens : List Token} (hne : text ≠ [])
    (h : ∀ c ∈ text, c ∉ Text.reserved) (hrest : outside rest = .ok tokens)
    (hapart : ∀ t ∈ tokens.head?, (numeral text).Apart t) :
    outside (text ++ rest) = .ok (numeral text :: tokens) := by
  induction text with
  | nil => exact absurd rfl hne
  | cons c text ih =>
    obtain ⟨hc, htext⟩ := List.forall_mem_cons.1 h
    rw [List.cons_append, outside_other hc]
    by_cases hnil : text = []
    · subst hnil
      rw [List.nil_append, hrest]
      change Except.ok (extend c tokens) = _
      match tokens with
      | [] | binary _ :: _ | unary _ :: _ | var _ :: _ | bracketed _ :: _ => rfl
      | numeral text :: tokens => exact absurd (hapart _ rfl) id
    · rw [ih hnil htext fun t ht ↦ by cases t <;> exact hapart _ ht]
      rfl

theorem outside_spell {tokens : List Token} (h : Canonical tokens) :
    outside (spell tokens) = .ok tokens := by
  -- each token is scanned in front of what follows it, whichever of the two clauses it comes from
  have step {t tokens} (hsound : Sound t) (hends : spell tokens ≠ [] ∨ t.Ends)
      (hapart : ∀ t' ∈ tokens.head?, t.Apart t') (ih : outside (spell tokens) = .ok tokens) :
      outside (spell (t :: tokens)) = .ok (t :: tokens) := by
    rw [spell_cons]
    cases hsound with
    | binary op =>
      rw [spelling, List.singleton_append, outside_binary op (hends.resolve_right id)]
      exact Except.map_eq_ok_iff.2 ⟨_, ih, rfl⟩
    | unary op =>
      rw [spelling, List.singleton_append, outside_unary op (hends.resolve_right id)]
      exact Except.map_eq_ok_iff.2 ⟨_, ih, rfl⟩
    | var v =>
      rw [spelling, List.singleton_append, outside_var]
      exact Except.map_eq_ok_iff.2 ⟨_, ih, rfl⟩
    | @bracketed body hopen hclose =>
      rw [spelling, List.cons_append, List.cons_append, outside_opening]
      refine Except.map_eq_ok_iff.2 ⟨(body ++ [']'], tokens), ?_, rfl⟩
      exact inside_eq_ok_iff.2 ⟨body, spell tokens, by simp, hopen, hclose, rfl, ih⟩
    | numeral hne htext => exact outside_numeral hne htext ih hapart
  induction h with
  | nil => rfl
  | last hsound hends => exact step hsound (.inr hends) nofun rfl
  | cons hsound hapart htokens ih =>
    refine step hsound (.inl (htokens.spell_ne_nil (List.cons_ne_nil _ _))) ?_ ih
    rintro _ ⟨⟩
    exact hapart

/-- A text is scanned into a list of tokens if and only if it is the spelling of that list, and the
list is one that scanning can produce. -/
theorem outside_eq_ok_iff {text : Text} {tokens : List Token} :
    outside text = .ok tokens ↔ Canonical tokens ∧ spell tokens = text := by
  refine ⟨canonical_of_outside, ?_⟩
  rintro ⟨h, rfl⟩
  exact outside_spell h

/-! ## Scanning a term -/

theorem outside_of_scan {text : Text} {tokens : List Token} (h : scan text = .ok tokens) :
    outside text = .ok tokens := by
  unfold scan at h
  split at h
  · cases h
  · exact h

theorem Sound.ofChar?_head? {t : Token} (h : t.Sound) (hbinary : ∀ op, t ≠ .binary op) :
    t.spelling.head?.bind BinaryOp.ofChar? = none := by
  cases h with
  | binary op => exact absurd rfl (hbinary op)
  | unary op => cases op <;> rfl
  | var v => cases v <;> rfl
  | bracketed hopen hclose => rfl
  | @numeral text hne htext =>
    obtain ⟨c, text, rfl⟩ := List.exists_cons_of_ne_nil hne
    refine Option.eq_none_iff_forall_ne_some.2 fun op hop ↦ htext c List.mem_cons_self ?_
    exact Text.mem_reserved_iff.2 (.inr (.inr (.inl ⟨op, BinaryOp.ofChar?_eq_some_iff.1 hop⟩)))

theorem scan_spell {tokens : List Token} (h : Canonical tokens)
    (hbinary : ∀ op, tokens.head? ≠ some (.binary op)) : scan (spell tokens) = .ok tokens := by
  have hhead : (spell tokens).head?.bind BinaryOp.ofChar? = none := by
    cases tokens with
    | nil => rfl
    | cons t tokens =>
      have hsound := h.sound t List.mem_cons_self
      obtain ⟨c, text, htext⟩ := List.exists_cons_of_ne_nil hsound.spelling_ne_nil
      have hnone := hsound.ofChar?_head? (by rintro op rfl; exact hbinary op rfl)
      rw [spell_cons, htext]
      rwa [htext] at hnone
  unfold scan
  rw [hhead]
  exact outside_spell h

/-- A list of tokens that a term can be scanned into. -/
structure Scannable (tokens : List Token) : Prop where
  /-- Each of the tokens can be scanned: a run is not empty and has no reserved character in it, a
  bracket has both its ends and no other bracket in it. -/
  sound : ∀ t ∈ tokens, t.Sound
  /-- No two runs stand next to each other. -/
  apart : tokens.IsChain Apart
  /-- The first token is no sign. -/
  head : ∀ op, tokens.head? ≠ some (.binary op)
  /-- The last token is no operator. -/
  last : ∀ t ∈ tokens.getLast?, t.Ends

theorem Scannable.canonical {tokens : List Token} (h : Scannable tokens) : Canonical tokens :=
  Canonical.iff_isChain.2 ⟨h.sound, h.apart, h.last⟩

/-- The scanner looks at the first character, but it is the first token that counts. -/
theorem head?_of_scan {text : Text} {tokens : List Token} (h : scan text = .ok tokens)
    (op : BinaryOp) : tokens.head? ≠ some (.binary op) := by
  intro hhead
  obtain ⟨tokens, rfl⟩ := List.head?_eq_some_iff.1 hhead
  obtain ⟨-, rfl⟩ := canonical_of_outside (outside_of_scan h)
  have hsign : (spell (binary op :: tokens)).head?.bind BinaryOp.ofChar? = some op :=
    BinaryOp.ofChar?_eq_some_iff.2 rfl
  rw [scan, hsign] at h
  cases h

/-- **Scanning is the inverse of spelling**: a term is scanned into a list of tokens if and only if
the list is one that a term can be scanned into and its tokens, one after another, spell the term.
So no character is lost, merged or doubled on the way, and what is accepted is what such a list
spells. -/
theorem scan_eq_ok_iff {text : Text} {tokens : List Token} :
    scan text = .ok tokens ↔ Scannable tokens ∧ spell tokens = text := by
  constructor
  · intro h
    obtain ⟨hcan, hspell⟩ := canonical_of_outside (outside_of_scan h)
    obtain ⟨hsound, hapart, hlast⟩ := Canonical.iff_isChain.1 hcan
    exact ⟨⟨hsound, hapart, head?_of_scan h, hlast⟩, hspell⟩
  · rintro ⟨htokens, rfl⟩
    exact scan_spell htokens.canonical htokens.head

theorem Canonical.append_binary {left right : List Token} (op : BinaryOp) (hl : Canonical left)
    (hr : Canonical right) (hne : right ≠ []) : Canonical (left ++ .binary op :: right) := by
  have hsign : Canonical (.binary op :: right) :=
    hr.cons_of (.binary op) (.inl hne) fun _ _ ↦ trivial
  induction hl with
  | nil => exact hsign
  | @last t hsound _ => exact .cons hsound (by cases t <;> trivial) hsign
  | cons hsound hapart _ ih => exact .cons hsound hapart ih

end Token

end OrbitPlot
