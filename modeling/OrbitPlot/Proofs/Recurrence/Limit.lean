import OrbitPlot.Proofs.Recurrence.Order

/-!
# The limit on numbers

A formula may have ten different numbers. What counts are the values: a numeral that is spelled like
one before it gets the slot of that one, wherever the two stand and whatever becomes of the formula.
So a formula is only refused for having too many numbers if eleven of its numerals are spelled
differently.

There is one exception. Not-a-number equals nothing, not even itself, so a numeral that spells it
gets a slot of its own each time. It is only for such a numeral that eleven numerals need not all be
spelled differently.

## Main statements

* `Pool.Logs.pairwise`: which numerals of a log have the same slot.
* `Pool.Logs.exists_numerals_of_refused`: which numerals there are before one that gets no slot.
* `slots_of_numerals`: both for the numerals of a formula.
-/

namespace OrbitPlot

/-! ## The numerals that tokens ask slots for -/

namespace Text

theorem numerals_append_of_head? {left right : Text} (h : ∀ c ∈ right.head?, delimits c) :
    numerals (left ++ right) = numerals left ++ numerals right := by
  cases right with
  | nil => rw [List.append_nil]; exact (List.append_nil _).symm
  | cons c right => rw [numerals_append_cons (h c rfl), numerals_cons (h c rfl)]

theorem numerals_append_of_getLast? {left right : Text} (h : ∀ c ∈ left.getLast?, delimits c) :
    numerals (left ++ right) = numerals left ++ numerals right := by
  cases left using List.reverseRecOn with
  | nil => rfl
  | append_singleton left c =>
    have hc := h c List.getLast?_concat
    rw [List.append_assoc, List.singleton_append, numerals_append_cons hc,
      numerals_append_cons hc left []]
    exact congrArg (· ++ _) (List.append_nil _).symm

end Text

namespace Token

theorem Sound.delimits {t : Token} (h : t.Sound) (hnot : ∀ text, t ≠ .numeral text) :
    (∀ c ∈ t.spelling.head?, Text.delimits c) ∧ ∀ c ∈ t.spelling.getLast?, Text.delimits c := by
  cases h with
  | binary op => exact ⟨by simp [spelling, Text.delimits_binary],
      by simp [spelling, Text.delimits_binary]⟩
  | unary op => exact ⟨by simp [spelling, Text.delimits_unary],
      by simp [spelling, Text.delimits_unary]⟩
  | var v =>
    have hv := Text.delimits_of_mem (Text.char_mem_reserved v)
    exact ⟨by simp [spelling, hv], by simp [spelling, hv]⟩
  | bracketed hopen hclose =>
    refine ⟨?_, ?_⟩
    · rintro c ⟨⟩
      decide
    · intro c hc
      rw [spelling, List.getLast?_concat] at hc
      cases hc
      decide
  | numeral hne hchars => exact absurd rfl (hnot _)

theorem numerals_spell {tokens : List Token} (h : Canonical tokens) :
    Text.numerals (spell tokens) = tokens.flatMap fun t ↦ Text.numerals t.spelling := by
  induction h with
  | nil => rfl
  | last _ _ => simp [spell]
  | @cons t t' tokens hsound hapart htokens ih =>
    rw [spell_cons, List.flatMap_cons, ← ih]
    have hsound' := htokens.sound t' List.mem_cons_self
    -- of two neighbours at most one is a run of characters
    by_cases ht : ∀ text, t ≠ .numeral text
    · exact Text.numerals_append_of_getLast? (hsound.delimits ht).2
    · simp only [ne_eq, not_forall, not_not] at ht
      obtain ⟨text, rfl⟩ := ht
      have ht' : ∀ text', t' ≠ .numeral text' := by
        rintro text' rfl
        exact hapart
      refine Text.numerals_append_of_head? fun c hc ↦ (hsound'.delimits ht').1 c ?_
      rwa [spell_cons, List.head?_append_of_ne_nil _ hsound'.spelling_ne_nil] at hc

end Token

/-- Whether a text is a number. -/
def Numeral.isNumber (text : Text) : Bool := (float? text).isSome

namespace Token

variable {ofBracket : Text → List Text}

theorem filter_asked_sublist {tokens : List Token} (h : Canonical tokens)
    (hbracket : ∀ text, Sound (.bracketed text) →
      ((ofBracket text).filter Numeral.isNumber).Sublist (Text.numerals text)) :
    ((tokens.flatMap (asked ofBracket)).filter Numeral.isNumber).Sublist
      (Text.numerals (spell tokens)) := by
  have htoken {t : Token} (ht : t.Sound) :
      ((t.asked ofBracket).filter Numeral.isNumber).Sublist (Text.numerals t.spelling) := by
    cases ht with
    | binary op => exact List.nil_sublist _
    | unary op => exact List.nil_sublist _
    | var v => exact List.nil_sublist _
    | bracketed hopen hclose => exact hbracket _ (.bracketed hopen hclose)
    | @numeral text hne hchars =>
      rw [asked, List.filter_singleton]
      cases hx : Numeral.float? text with
      | none =>
        rw [Numeral.isNumber, hx]
        exact List.nil_sublist _
      | some x =>
        rw [Numeral.isNumber, hx, spelling, Text.numerals_of_float? hchars hx]
        exact List.Sublist.refl _
  rw [numerals_spell h]
  have hsound := h.sound
  clear h
  induction tokens with
  | nil => exact List.nil_sublist _
  | cons t tokens ih =>
    obtain ⟨ht, htokens⟩ := List.forall_mem_cons.1 hsound
    rw [List.flatMap_cons, List.flatMap_cons, List.filter_append]
    exact (htoken ht).append (ih htokens)

end Token

namespace Text

theorem filter_asked_sublist_of_scan {ofBracket : Text → List Text} {text : Text}
    {tokens : List Token} (h : Token.scan text = .ok tokens)
    (hbracket : ∀ text, Token.Sound (.bracketed text) →
      ((ofBracket text).filter Numeral.isNumber).Sublist (numerals text)) :
    ((tokens.flatMap (Token.asked ofBracket)).filter Numeral.isNumber).Sublist
      (numerals text) := by
  obtain ⟨hcanonical, rfl⟩ := Token.outside_eq_ok_iff.1 (Token.outside_of_scan h)
  exact Token.filter_asked_sublist hcanonical hbracket

theorem filter_askedInPart_sublist (text : Text) :
    ((askedInPart text).filter Numeral.isNumber).Sublist (numerals text) := by
  unfold askedInPart
  split
  · next tokens hscan =>
    exact filter_asked_sublist_of_scan hscan fun text _ ↦ List.nil_sublist _
  · exact List.nil_sublist _

theorem filter_askedInBracket_sublist {text : Text} (h : Token.Sound (.bracketed text)) :
    ((askedInBracket text).filter Numeral.isNumber).Sublist (numerals text) := by
  cases h with
  | @bracketed body hopen hclose =>
    rw [askedInBracket, unbracketed_bracketed hopen hclose]
    split
    · next left right hsplit =>
      obtain ⟨rfl, -, -⟩ := splitOn_eq_pair_iff.1 hsplit
      rw [← Expr.bracketText_eq, numerals_bracketText, List.filter_append]
      exact (filter_askedInPart_sublist left).append (filter_askedInPart_sublist right)
    · exact List.nil_sublist _

theorem filter_asked_sublist {raw : Text} {firsts nexts : List Token}
    (h : Token.scanTerms raw = .ok (firsts, nexts)) :
    (((firsts ++ nexts).flatMap (Token.asked askedInBracket)).filter Numeral.isNumber).Sublist
      (numerals raw) := by
  obtain ⟨first, next, rfl, -, -, -, -, hfirst, hnext⟩ := Token.scanTerms_eq_ok_iff.1 h
  rw [numerals_append_cons (by decide), List.flatMap_append, List.filter_append]
  exact (filter_asked_sublist_of_scan hfirst fun _ ↦ filter_askedInBracket_sublist).append
    (filter_asked_sublist_of_scan hnext fun _ ↦ filter_askedInBracket_sublist)

end Text

/-! ## Numerals of the same spelling -/

theorem beq_eq_false_of_isNaN {x y : Float} (hx : x.isNaN) : (y == x) = false := by
  rw [Float.isNaN_eq_decide_eq_nan, decide_eq_true_iff] at hx
  refine Bool.eq_false_iff.2 fun heq ↦ ?_
  exact Float.beq_self_iff.1 (BEq.trans (BEq.symm heq) heq) hx

/-- A text is a numeral that spells not-a-number. -/
def Numeral.NamesNaN (text : Text) : Prop := ∃ x : Float, float? text = some x ∧ x.isNaN

instance : DecidablePred Numeral.NamesNaN := fun text ↦
  decidable_of_iff ((Numeral.float? text).any Float.isNaN) (Option.any_eq_true _ _)

namespace Pool

variable {p q r : Pool} {log : List (Text × Nat)}

/-- The numeral `n.1` has the slot `n.2`. A number is found there again. -/
def Located (s : Slots Float) (n : Text × Nat) : Prop :=
  ∃ x, Numeral.float? n.1 = some x ∧ n.2 < s.size ∧
    (x.isNaN = false → s.items.toList.findIdx (· == x) = n.2)

theorem Located.intern {s t : Slots Float} {n : Text × Nat} (h : Located s n) {y : Float}
    {slot : Nat} (hintern : s.intern (· == ·) y = some (slot, t)) : Located t n := by
  obtain ⟨x, hx, hlt, hfind⟩ := h
  obtain ⟨rfl, -⟩ | ⟨-, -, hitems⟩ := Slots.intern_cases hintern
  · exact ⟨x, hx, hlt, hfind⟩
  · refine ⟨x, hx, ?_, fun hnan ↦ ?_⟩
    · rw [Slots.size, hitems, Array.size_push]
      exact Nat.lt_succ_of_lt hlt
    · have hfind := hfind hnan
      have hlength : s.items.toList.length = s.size := rfl
      rw [hitems, Array.toList_push, List.findIdx_append, hfind, hlength, if_pos hlt]

theorem located_of_intern {s t : Slots Float} {text : Text} {x : Float} {slot : Nat}
    (hx : Numeral.float? text = some x) (h : s.intern (· == ·) x = some (slot, t)) :
    Located t (text, slot) := by
  obtain ⟨y, hy, -⟩ := Slots.get?_slot_of_intern h
  refine ⟨x, hx, Slots.get?_lt_size hy, fun hnan ↦ ?_⟩
  have hslot := Slots.slot_of_intern h
  obtain ⟨rfl, -⟩ | ⟨heq, -, hitems⟩ := Slots.intern_cases h
  · exact hslot.symm
  · have hlength : s.items.toList.length = s.size := rfl
    have hself : [x].findIdx (· == x) = 0 := by
      rw [List.findIdx_cons, beq_self_of_isNaN hnan, cond_true]
    rw [hitems, Array.toList_push, List.findIdx_append, ← hslot, hlength, heq,
      if_neg (Nat.lt_irrefl _), hself, Nat.zero_add]

/-- A numeral that is read again gets its slot again, unless it spells not-a-number. -/
theorem Located.slot_eq_iff {s t : Slots Float} {n : Text × Nat} (h : Located s n) {x : Float}
    {slot : Nat} (hx : Numeral.float? n.1 = some x)
    (hintern : s.intern (· == ·) x = some (slot, t)) :
    n.2 = slot ↔ ¬Numeral.NamesNaN n.1 := by
  obtain ⟨y, hy, hlt, hfind⟩ := h
  cases hx.symm.trans hy
  rw [Slots.slot_of_intern hintern]
  cases hnan : x.isNaN with
  | false =>
    refine iff_of_true (hfind hnan).symm ?_
    rintro ⟨y, hy, hynan⟩
    cases hx.symm.trans hy
    rw [hnan] at hynan
    cases hynan
  | true =>
    refine iff_of_false ?_ (not_not_intro ⟨x, hx, hnan⟩)
    rw [List.findIdx_eq_length_of_false fun y _ ↦ beq_eq_false_of_isNaN hnan]
    exact hlt.ne

theorem exists_intern_of_readNumber {text : Text} {slot : Nat} {x : Float}
    (h : Expr.readNumber text p = .ok (.number slot x) q) :
    Numeral.float? text = some x ∧
      ∃ reals, p.reals.intern (· == ·) x = some (slot, reals) ∧ q = { p with reals } := by
  obtain ⟨slot, x, hx, heq, hinterns⟩ := Expr.readNumber_eq_ok_iff.1 h
  cases heq
  exact ⟨hx, internReal_eq_ok_iff.1 hinterns⟩

namespace Logs

theorem located (h : p.Logs log q) : ∀ n ∈ log, Located q.reals n := by
  induction h with
  | refl => exact fun n hn ↦ absurd hn List.not_mem_nil
  | number _ hread ih =>
    obtain ⟨hx, reals, hintern, rfl⟩ := exists_intern_of_readNumber hread
    rw [List.forall_mem_append, List.forall_mem_singleton]
    exact ⟨fun n hn ↦ (ih n hn).intern hintern, located_of_intern hx hintern⟩
  | bracket _ _ hreals ih =>
    rw [hreals]
    exact ih

/-- **Numerals of the same spelling have the same slot**, unless they spell not-a-number: then they
have different slots. -/
theorem pairwise (h : p.Logs log q) :
    log.Pairwise fun n m ↦ n.1 = m.1 → (n.2 = m.2 ↔ ¬Numeral.NamesNaN n.1) := by
  induction h with
  | refl => exact .nil
  | number h hread ih =>
    obtain ⟨hx, reals, hintern, -⟩ := exists_intern_of_readNumber hread
    rw [List.pairwise_append]
    refine ⟨ih, List.pairwise_singleton _ _, fun n hn m hm hspelled ↦ ?_⟩
    cases List.mem_singleton.1 hm
    dsimp only at hspelled ⊢
    rw [← hspelled] at hx
    exact (h.located n hn).slot_eq_iff hx hintern
  | bracket _ _ _ ih => exact ih

end Logs

end Pool

/-! ## Numerals of different spellings -/

namespace Slots

variable {α : Type} {agrees : α → α → Bool}

theorem distinct_sublist (agrees : α → α → Bool) (xs : List α) :
    (distinct agrees xs).Sublist xs := by
  induction xs using List.reverseRecOn with
  | nil => exact .refl _
  | append_singleton xs x ih =>
    rw [distinct_concat, keep]
    split
    · exact ih.trans (List.sublist_append_left _ _)
    · exact ih.append (.refl _)

theorem pairwise_distinct (agrees : α → α → Bool) (xs : List α) :
    (distinct agrees xs).Pairwise fun x y ↦ agrees x y = false := by
  induction xs using List.reverseRecOn with
  | nil => exact .nil
  | append_singleton xs x ih =>
    rw [distinct_concat, keep]
    split
    · exact ih
    · next hnot =>
      rw [List.pairwise_append]
      refine ⟨ih, List.pairwise_singleton _ _, fun y hy z hz ↦ ?_⟩
      cases List.mem_singleton.1 hz
      exact Bool.eq_false_iff.2 fun hagrees ↦ hnot (List.any_eq_true.2 ⟨y, hy, hagrees⟩)

end Slots

namespace Numeral

/-- Two numerals spell numbers that are equal. -/
def agree (text other : Text) : Bool :=
  (float? text).any fun x ↦ (float? other).any fun y ↦ x == y

theorem agree_eq {text other : Text} {x y : Float} (hx : float? text = some x)
    (hy : float? other = some y) : agree text other = (x == y) := by
  rw [agree, hx, hy]
  rfl

theorem namesNaN_of_agree_eq_false {text : Text} (hnumber : isNumber text)
    (h : agree text text = false) : NamesNaN text := by
  obtain ⟨x, hx⟩ := Option.isSome_iff_exists.1 hnumber
  refine ⟨x, hx, ?_⟩
  by_contra hnan
  rw [agree_eq hx hx, beq_self_of_isNaN (Bool.eq_false_iff.2 hnan)] at h
  cases h

end Numeral

namespace Pool.Logs

variable {q : Pool} {log : List (Text × Nat)}

theorem isNumber {p : Pool} (h : p.Logs log q) : ∀ n ∈ log, Numeral.isNumber n.1 := by
  intro n hn
  obtain ⟨x, hx, -⟩ := h.located n hn
  rw [Numeral.isNumber, hx, Option.isSome_some]

/-- The numbers in the pool are those of the numerals that differ from all before them. -/
theorem map_distinct (h : Logs {} log q) :
    (Slots.distinct Numeral.agree (log.map Prod.fst)).map Numeral.float? =
      q.reals.items.toList.map some := by
  induction h with
  | refl => rfl
  | @number log q r text slot x h hread ih =>
    obtain ⟨hx, reals, hintern, rfl⟩ := exists_intern_of_readNumber hread
    have hany : (Slots.distinct Numeral.agree (log.map Prod.fst)).any (Numeral.agree · text) =
        q.reals.items.toList.any (· == x) := by
      have hmap := congrArg (List.any · fun y? ↦ y?.any (· == x)) ih
      simp only [List.any_map, Function.comp_def, Option.any_some] at hmap
      rw [← hmap]
      simp only [Numeral.agree, hx, Option.any_some]
    rw [List.map_append, List.map_singleton, Slots.distinct_concat, Slots.toList_of_intern hintern,
      Slots.keep, Slots.keep, hany]
    split
    · exact ih
    · rw [List.map_append, List.map_append, ih, List.map_singleton, List.map_singleton, hx]
  | bracket _ _ hreals ih => rw [hreals, ih]

/-- Before a numeral that gets no slot there are ten numerals in other slots. Among these eleven,
only numerals that spell not-a-number are spelled alike. -/
theorem exists_numerals_of_refused (h : Logs {} log q) {text : Text} {x : Float}
    (hx : Numeral.float? text = some x) (hrefused : q.reals.intern (· == ·) x = none) :
    ∃ texts : List Text, texts.Sublist (log.map Prod.fst ++ [text]) ∧ texts.length = capacity + 1 ∧
      texts.Pairwise fun u v ↦ u = v → Numeral.NamesNaN u := by
  obtain ⟨-, hlacks⟩ := Slots.intern_eq_none_iff.1 hrefused
  have hfull := Slots.size_of_intern_eq_none hrefused
  have hkept := h.map_distinct
  refine ⟨Slots.distinct Numeral.agree (log.map Prod.fst) ++ [text],
    (Slots.distinct_sublist _ _).append (.refl _), ?_, ?_⟩
  · have hlength := congrArg List.length hkept
    rw [List.length_map, List.length_map] at hlength
    rw [List.length_append, hlength, List.length_singleton]
    exact congrArg (· + 1) hfull
  · rw [List.pairwise_append]
    have hnumber {u : Text} (hu : u ∈ Slots.distinct Numeral.agree (log.map Prod.fst)) :
        Numeral.isNumber u := by
      obtain ⟨n, hn, rfl⟩ := List.mem_map.1 (Slots.mem_of_mem_distinct hu)
      exact h.isNumber n hn
    refine ⟨?_, List.pairwise_singleton _ _, ?_⟩
    · refine (Slots.pairwise_distinct _ _).imp_of_mem fun {u v} hu hv hagree heq ↦ ?_
      subst heq
      exact Numeral.namesNaN_of_agree_eq_false (hnumber hu) hagree
    · intro u hu v hv heq
      cases List.mem_singleton.1 hv
      subst heq
      refine Numeral.namesNaN_of_agree_eq_false (hnumber hu) ?_
      -- the slot of this numeral holds a number that the refused one does not equal
      have hmem : some x ∈ q.reals.items.toList.map some := by
        rw [← hkept, ← hx]
        exact List.mem_map_of_mem hu
      obtain ⟨y, hy, heq⟩ := List.mem_map.1 hmem
      cases heq
      obtain ⟨k, hk⟩ := List.mem_iff_getElem?.1 hy
      rw [Numeral.agree_eq hx hx]
      exact hlacks (k := k) ((Array.getElem?_toList ..).symm.trans hk)

end Pool.Logs

/-! ## Formulas -/

theorem Recurrence.exists_ofTerms_of_read {raw : Text} (h : read raw = .error .tooManyReals) :
    ∃ firsts nexts q, Token.scanTerms raw = .ok (firsts, nexts) ∧
      Program.ofTerms firsts nexts {} = .error .tooManyReals q := by
  unfold read at h
  obtain hscan | ⟨⟨firsts, nexts⟩, hscan, h⟩ := Except.bind_eq_error_iff.1 h
  · exact (Token.failsOnly_scanTerms raw _ hscan).elim
  · dsimp only at h
    cases hterms : Program.ofTerms firsts nexts {} with
    | ok programs q =>
      rw [hterms] at h
      simp only [ofPrograms] at h
      split at h
      · cases h
      · split at h
        · cases h
        · cases h
    | error e q =>
      rw [hterms] at h
      cases h
      exact ⟨firsts, nexts, q, hscan, hterms⟩

theorem Pool.Logs.append_sublist_numerals {raw : Text} {firsts nexts : List Token}
    {log : List (Text × Nat)} {q : Pool} (h : Logs {} log q)
    (hscan : Token.scanTerms raw = .ok (firsts, nexts)) {next rest : List Text}
    (hnext : ∀ text ∈ next, Numeral.isNumber text)
    (hasked : (firsts ++ nexts).flatMap (Token.asked Text.askedInBracket) =
      log.map Prod.fst ++ next ++ rest) :
    (log.map Prod.fst ++ next).Sublist raw.numerals := by
  refine List.Sublist.trans ?_ (Text.filter_asked_sublist hscan)
  have hall : ∀ text ∈ log.map Prod.fst ++ next, Numeral.isNumber text := by
    rw [List.forall_mem_append, List.forall_mem_map]
    exact ⟨h.isNumber, hnext⟩
  rw [hasked, List.filter_append, List.filter_eq_self.2 hall]
  exact List.sublist_append_left _ _

theorem Pool.Logs.sublist_numerals {raw : Text} {firsts nexts : List Token}
    {log : List (Text × Nat)} {q : Pool} (h : Logs {} log q)
    (hscan : Token.scanTerms raw = .ok (firsts, nexts)) {rest : List Text}
    (hasked : (firsts ++ nexts).flatMap (Token.asked Text.askedInBracket) =
      log.map Prod.fst ++ rest) : (log.map Prod.fst).Sublist raw.numerals := by
  rw [← List.append_nil (log.map Prod.fst)] at hasked ⊢
  exact h.append_sublist_numerals hscan nofun hasked

/-- **Only different numbers count.** Whatever becomes of a formula whose terms can be scanned, its
numerals are given slots in the order of the text, up to the one where reading fails. Two of them
that are spelled alike have the same slot, unless they spell not-a-number: then each has its own.

If a formula is refused for having too many numbers, there are eleven numerals in it that are
spelled differently, or are spelled alike only if they spell not-a-number. -/
theorem slots_of_numerals (raw : Text) :
    (∀ firsts nexts, Token.scanTerms raw = .ok (firsts, nexts) → ∃ log rest,
      (firsts ++ nexts).flatMap (Token.asked Text.askedInBracket) = log.map Prod.fst ++ rest ∧
      Pool.Logs {} log (Pool.after (Program.ofTerms firsts nexts {})) ∧
      (log.map Prod.fst).Sublist raw.numerals ∧
      (log.Pairwise fun n m ↦ n.1 = m.1 → (n.2 = m.2 ↔ ¬Numeral.NamesNaN n.1)) ∧
      ∀ programs pool, Program.ofTerms firsts nexts {} = .ok programs pool → rest = []) ∧
    (Recurrence.read raw = .error .tooManyReals → ∃ texts : List Text,
      texts.Sublist raw.numerals ∧ texts.length = capacity + 1 ∧
        texts.Pairwise fun u v ↦ u = v → Numeral.NamesNaN u) := by
  constructor
  · intro firsts nexts hscan
    have hterms := Pool.proceeds_ofTerms (p := {}) firsts nexts
    cases hresult : Program.ofTerms firsts nexts {} with
    | ok programs q =>
      rw [hresult] at hterms
      obtain ⟨log, hasked, hlogs⟩ := hterms
      rw [← List.append_nil (log.map Prod.fst)] at hasked
      exact ⟨log, [], hasked, hlogs, hlogs.sublist_numerals hscan hasked, hlogs.pairwise,
        fun _ _ _ ↦ rfl⟩
    | error e q =>
      rw [hresult] at hterms
      obtain ⟨log, rest, hasked, hlogs, -⟩ := hterms.logs
      exact ⟨log, rest, hasked, hlogs, hlogs.sublist_numerals hscan hasked, hlogs.pairwise, nofun⟩
  · intro h
    obtain ⟨firsts, nexts, q, hscan, hresult⟩ := Recurrence.exists_ofTerms_of_read h
    have hterms := Pool.proceeds_ofTerms (p := {}) firsts nexts
    rw [hresult] at hterms
    obtain ⟨log, rest, hasked, hlogs, hnext⟩ := hterms.logs
    obtain ⟨text, htext, x, hx, hrefused⟩ := hnext rfl
    obtain ⟨rest, rfl⟩ := List.head?_eq_some_iff.1 htext
    obtain ⟨texts, hpart, hlength, hpairwise⟩ := hlogs.exists_numerals_of_refused hx hrefused
    rw [← List.singleton_append, ← List.append_assoc] at hasked
    refine ⟨texts, hpart.trans (hlogs.append_sublist_numerals hscan ?_ hasked), hlength, hpairwise⟩
    rw [List.forall_mem_singleton, Numeral.isNumber, hx, Option.isSome_some]

/-- A number and not-a-number, twice each, and a formula with eleven numbers. -/
theorem slots_of_numerals_of_repeated :
    (∃ log i j k, Pool.Logs {} log
        (Pool.after (Program.ofTerms [.var .current] [.bracketed "[2+NAN,2*NAN]".toList] {})) ∧
      log = [(['2'], i), ("NAN".toList, j), (['2'], i), ("NAN".toList, k)] ∧ j ≠ k) ∧
    Recurrence.read "c;[0+1+2+3+4+5+6+7+8+9+10,0]".toList = .error .tooManyReals ∧
    ∃ texts : List Text, texts.Sublist (Text.numerals "c;[0+1+2+3+4+5+6+7+8+9+10,0]".toList) ∧
      texts.length = 11 ∧ texts.Pairwise fun u v ↦ u = v → Numeral.NamesNaN u := by
  constructor
  · have hscan : (Token.scanTerms "c;[2+NAN,2*NAN]".toList).toOption =
        some ([.var .current], [.bracketed "[2+NAN,2*NAN]".toList]) := by decide +kernel
    have hasked : ([.var .current] ++ [.bracketed "[2+NAN,2*NAN]".toList] : List Token).flatMap
        (Token.asked Text.askedInBracket) =
          [['2'], "NAN".toList, ['2'], "NAN".toList] := by decide +kernel
    have htwo : ¬Numeral.NamesNaN ['2'] := by decide +kernel
    have hnan : Numeral.NamesNaN "NAN".toList := by decide +kernel
    obtain ⟨log, rest, hlog, hlogs, -, hpairwise, hrest⟩ :=
      (slots_of_numerals "c;[2+NAN,2*NAN]".toList).1 _ _ (Except.eq_ok_of_toOption_eq_some hscan)
    have hok : (match Program.ofTerms [.var .current] [.bracketed "[2+NAN,2*NAN]".toList] {} with
        | .ok _ _ => true
        | .error _ _ => false) = true := by decide +kernel
    split at hok
    · next programs pool hterms =>
      rw [hasked, hrest _ _ hterms, List.append_nil] at hlog
      match log, hlog with
      | [(_, i), (_, j), (_, i'), (_, k)], hlog =>
        simp only [List.map_cons, List.map_nil, List.cons.injEq, and_true] at hlog
        obtain ⟨rfl, rfl, rfl, rfl⟩ := hlog
        simp only [List.pairwise_cons, List.mem_cons, List.not_mem_nil, or_false] at hpairwise
        obtain ⟨hfirst, hsecond, -⟩ := hpairwise
        obtain rfl := (hfirst (['2'], i') (.inr (.inl rfl)) rfl).2 htwo
        have hj := hsecond ("NAN".toList, k) (.inr rfl) rfl
        exact ⟨_, _, j, k, hlogs, rfl, fun heq ↦ hj.1 heq hnan⟩
    · cases hok
  · have hread : Recurrence.read "c;[0+1+2+3+4+5+6+7+8+9+10,0]".toList = .error .tooManyReals := by
      have herror : (match Recurrence.read "c;[0+1+2+3+4+5+6+7+8+9+10,0]".toList with
          | .ok _ => none
          | .error e => some e) = some .tooManyReals := by decide +kernel
      split at herror
      · cases herror
      · next heq =>
        cases herror
        exact heq
    exact ⟨hread, (slots_of_numerals _).2 hread⟩

/-- Not-a-number is counted each time: eleven times the same numeral are too many numbers, and two
of them have two slots. -/
theorem exists_read_eq_error_of_namesNaN :
    (∃ raw : Text, Recurrence.read raw = .error .tooManyReals ∧
      ¬∃ texts : List Text, texts.Sublist raw.numerals ∧ texts.length = 11 ∧ texts.Nodup) ∧
    ∃ (raw : Text) (r : Recurrence), Recurrence.read raw = .ok r ∧
      raw.numerals = ["NAN".toList, "NAN".toList] ∧ r.pool.reals.size = 2 := by
  constructor
  · refine ⟨"c;[NAN+NAN+NAN+NAN+NAN+NAN+NAN+NAN+NAN+NAN+NAN,0]".toList, ?_, ?_⟩
    · have herror : (match Recurrence.read
            "c;[NAN+NAN+NAN+NAN+NAN+NAN+NAN+NAN+NAN+NAN+NAN,0]".toList with
          | .ok _ => none
          | .error e => some e) = some .tooManyReals := by decide +kernel
      split at herror
      · cases herror
      · next heq =>
        cases herror
        exact heq
    · rintro ⟨texts, hpart, hlength, hnodup⟩
      have htwo : ∀ text ∈ Text.numerals "c;[NAN+NAN+NAN+NAN+NAN+NAN+NAN+NAN+NAN+NAN+NAN,0]".toList,
          text ∈ ["NAN".toList, ['0']] := by decide +kernel
      have hle := (List.subperm_of_subset hnodup fun text htext ↦
        htwo text (hpart.subset htext)).length_le
      rw [hlength] at hle
      exact absurd hle (by decide)
  · have hsize : (Recurrence.read "c;[NAN,NAN]".toList).toOption.map
        (fun r ↦ r.pool.reals.size) = some 2 := by decide +kernel
    obtain ⟨r, hread, hr⟩ := Except.exists_of_map_toOption_eq_some hsize
    exact ⟨_, r, hread, by decide +kernel, hr⟩
end OrbitPlot
