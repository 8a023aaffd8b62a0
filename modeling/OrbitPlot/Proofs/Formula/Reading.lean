import OrbitPlot.Proofs.Formula.Interning
import OrbitPlot.Proofs.Formula.Sweep
import OrbitPlot.Proofs.Formula.Token

/-!
# Terms are read by the grammar

A term is read in three stages: it is scanned, its tokens become a row while their numbers and
brackets are interned, and the row is swept. Tokens are an alphabet of their own, so a derivation
from the text is carried over to the tokens and from there to the row, and back.

## Main statement

`Program.ofTokens_eq_ok_iff`: which programs a scanned term may have.
-/

namespace OrbitPlot

/-! ## Derivations over tokens -/

namespace Token

/-- The operators as tokens. -/
def alphabet : Alphabet Token := ⟨.unary, .binary⟩

/-- A token is an atom if it is no operator and its spelling is one. -/
def Atom (atom : ∀ kind, Text → Expr kind → Prop) (kind : Kind) (tokens : List Token)
    (e : Expr kind) : Prop :=
  ∃ t, tokens = [t] ∧ t.Sound ∧ t.Ends ∧ atom kind t.spelling e

variable {atom : ∀ kind, Text → Expr kind → Prop} {g : Grade} {kind : Kind} {tokens : List Token}
  {e : Expr kind}

theorem derives_spell (h : Derives alphabet (Atom atom) g tokens e) :
    Derives Text.alphabet atom g (spell tokens) e := by
  refine h.expand (fun op w hw ↦ hw) (fun op w hw ↦ hw) ?_ (.flatMap spelling tokens)
  rintro kind _ e w ⟨t, rfl, -, -, hatom⟩ hw
  obtain ⟨_, _, rfl, rfl, hnil⟩ := hw.cons_inv
  cases hnil
  rwa [List.append_nil]

/-- A text that stands for something spells tokens that stand for the same. -/
theorem exists_derives_of_text {text : Text} (h : Derives Text.alphabet atom g text e)
    (hatom : ∀ kind text (e : Expr kind), atom kind text e →
      ∃ t : Token, t.Sound ∧ t.Ends ∧ t.spelling = text) :
    ∃ tokens, spell tokens = text ∧ Derives alphabet (Atom atom) g tokens e := by
  induction h with
  | atom h =>
    obtain ⟨t, hsound, hends, rfl⟩ := hatom _ _ _ h
    exact ⟨[t], List.append_nil _, .atom ⟨t, rfl, hsound, hends, h⟩⟩
  | @unary op _ _ _ ih =>
    obtain ⟨tokens, rfl, h⟩ := ih
    exact ⟨.unary op :: tokens, rfl, .unary h⟩
  | product _ ih =>
    obtain ⟨tokens, rfl, h⟩ := ih
    exact ⟨tokens, rfl, .product h⟩
  | mul _ _ ihl ihr =>
    obtain ⟨left, rfl, hl⟩ := ihl
    obtain ⟨right, rfl, hr⟩ := ihr
    exact ⟨left ++ .binary .mul :: right, List.flatMap_append, .mul hl hr⟩
  | sum _ ih =>
    obtain ⟨tokens, rfl, h⟩ := ih
    exact ⟨tokens, rfl, .sum h⟩
  | @additive op _ _ _ _ _ hop _ _ ihl ihr =>
    obtain ⟨left, rfl, hl⟩ := ihl
    obtain ⟨right, rfl, hr⟩ := ihr
    exact ⟨left ++ .binary op :: right, List.flatMap_append, .additive hop hl hr⟩

private theorem canonical_of_derives (h : Derives alphabet (Atom atom) g tokens e) :
    tokens ≠ [] ∧ Canonical tokens ∧ ∀ op, tokens.head? ≠ some (.binary op) := by
  have happend {op : BinaryOp} {left right : List Token}
      (hl : left ≠ [] ∧ Canonical left ∧ ∀ op, left.head? ≠ some (.binary op))
      (hr : right ≠ [] ∧ Canonical right ∧ ∀ op, right.head? ≠ some (.binary op)) :
      left ++ binary op :: right ≠ [] ∧ Canonical (left ++ binary op :: right) ∧
        ∀ op', (left ++ binary op :: right).head? ≠ some (.binary op') := by
    obtain ⟨hne, hcan, hhead⟩ := hl
    refine ⟨List.append_ne_nil_of_left_ne_nil hne _, hcan.append_binary op hr.2.1 hr.1, ?_⟩
    obtain ⟨t, left, rfl⟩ := List.exists_cons_of_ne_nil hne
    exact hhead
  induction h with
  | atom h =>
    obtain ⟨t, rfl, hsound, hends, -⟩ := h
    refine ⟨List.cons_ne_nil _ _, .last hsound hends, ?_⟩
    rintro op ⟨⟩
    exact hends
  | @unary op _ _ _ ih =>
    exact ⟨List.cons_ne_nil _ _, ih.2.1.cons_of (.unary op) (.inl ih.1) fun _ _ ↦ trivial, nofun⟩
  | product _ ih => exact ih
  | mul _ _ ihl ihr => exact happend ihl ihr
  | sum _ ih => exact ih
  | additive _ _ _ ihl ihr => exact happend ihl ihr

theorem scan_of_derives (h : Derives alphabet (Atom atom) g tokens e) :
    scan (spell tokens) = .ok tokens :=
  scan_spell (canonical_of_derives h).2.1 (canonical_of_derives h).2.2

end Token

/-! ## Variables -/

namespace Expr

/-- A variable occurs in an expression. -/
def Mentions (v : Variable) {kind : Kind} : Expr kind → Prop
  | var w => v = w
  | number _ _ => False
  | bracket _ x y => x.Mentions v ∨ y.Mentions v
  | abs e => e.Mentions v
  | re e => e.Mentions v
  | im e => e.Mentions v
  | binary _ left right => left.Mentions v ∨ right.Mentions v

theorem mentions_unary {v : Variable} {op : UnaryOp} {e : Expr op.operandKind} :
    (Expr.unary op e).Mentions v ↔ e.Mentions v := by
  cases op <;> rfl

/-- At the start of a sequence, only variables occur that have a value by then. -/
def Allowed (atStart : Bool) {kind : Kind} (e : Expr kind) : Prop :=
  ∀ v, e.Mentions v → atStart → v.knownAtStart

theorem allowed_var {atStart : Bool} {v : Variable} :
    (var v).Allowed atStart ↔ (atStart → v.knownAtStart) :=
  ⟨fun h ↦ h v rfl, by rintro h _ rfl; exact h⟩

theorem allowed_number (atStart : Bool) (slot : Nat) (value : Float) :
    (number slot value).Allowed atStart :=
  fun _ hv ↦ hv.elim

theorem allowed_bracket {atStart : Bool} {slot : Nat} {x y : Expr .real} :
    (bracket slot x y).Allowed atStart ↔ x.Allowed atStart ∧ y.Allowed atStart :=
  ⟨fun h ↦ ⟨fun v hv ↦ h v (.inl hv), fun v hv ↦ h v (.inr hv)⟩,
    fun h v hv ↦ hv.elim (h.1 v) (h.2 v)⟩

theorem allowed_unary {atStart : Bool} {op : UnaryOp} {e : Expr op.operandKind} :
    (Expr.unary op e).Allowed atStart ↔ e.Allowed atStart :=
  forall_congr' fun _ ↦ imp_congr_left mentions_unary

theorem allowed_binary {atStart : Bool} {kind : Kind} {op : BinaryOp} {l r : Expr kind} :
    (Expr.binary op l r).Allowed atStart ↔ l.Allowed atStart ∧ r.Allowed atStart :=
  ⟨fun h ↦ ⟨fun v hv ↦ h v (.inl hv), fun v hv ↦ h v (.inr hv)⟩,
    fun h v hv ↦ hv.elim (h.1 v) (h.2 v)⟩

end Expr

/-! ## From tokens to rows -/

section

variable {bracket : Text → Interning (Expr .complex)} {atStart : Bool} {p q : Pool}

namespace Item

theorem ofToken_var (v : Variable) {item : Item} :
    ofToken bracket atStart (.var v) p = .ok item q ↔
      (atStart → v.knownAtStart) ∧ item = .operand ⟨.var v⟩ ∧ q = p := by
  by_cases hv : atStart && !v.knownAtStart
  · rw [ofToken, if_pos hv]
    refine ⟨nofun, fun h ↦ ?_⟩
    simp_all
  · rw [ofToken, if_neg hv]
    constructor
    · rintro ⟨⟩
      refine ⟨fun hstart ↦ ?_, rfl, rfl⟩
      simp_all
    · rintro ⟨-, rfl, rfl⟩
      rfl

theorem ofToken_eq_ok {t : Token} {item : Item}
    (h : ofToken bracket atStart t p = .ok item q) :
    (∃ op, t = .binary op ∧ item = .binary op ∧ q = p) ∨
      (∃ op, t = .unary op ∧ item = .unary op ∧ q = p) ∨ ∃ e, item = .operand e := by
  cases t with
  | binary op => cases h; exact .inl ⟨op, rfl, rfl, rfl⟩
  | unary op => cases h; exact .inr (.inl ⟨op, rfl, rfl, rfl⟩)
  | var v => exact .inr (.inr ⟨_, ((ofToken_var v).1 h).2.1⟩)
  | numeral text =>
    obtain ⟨e, p₁, -, h⟩ := EStateM.bind_eq_ok_iff.1 h
    cases h
    exact .inr (.inr ⟨_, rfl⟩)
  | bracketed text =>
    obtain ⟨e, p₁, -, h⟩ := EStateM.bind_eq_ok_iff.1 h
    cases h
    exact .inr (.inr ⟨_, rfl⟩)

theorem exists_token_of_row {tokens : List Token} {e : Operand}
    (h : tokens.mapM (ofToken bracket atStart) p = .ok [.operand e] q) :
    ∃ t, tokens = [t] ∧ ofToken bracket atStart t p = .ok (.operand e) q := by
  cases tokens with
  | nil => cases h
  | cons t tokens =>
    obtain ⟨item, row, p₁, hitem, hrest, heq⟩ := EStateM.mapM_cons_eq_ok_iff.1 h
    cases heq
    cases tokens with
    | nil =>
      cases hrest
      exact ⟨t, rfl, hitem⟩
    | cons t' tokens =>
      obtain ⟨_, _, _, -, -, heq⟩ := EStateM.mapM_cons_eq_ok_iff.1 hrest
      cases heq

theorem exists_unary_of_row {tokens : List Token} {op : UnaryOp} {row : List Item}
    (h : tokens.mapM (ofToken bracket atStart) p = .ok (.unary op :: row) q) :
    ∃ rest, tokens = .unary op :: rest ∧ rest.mapM (ofToken bracket atStart) p = .ok row q := by
  cases tokens with
  | nil => cases h
  | cons t tokens =>
    obtain ⟨item, row, p₁, hitem, hrest, heq⟩ := EStateM.mapM_cons_eq_ok_iff.1 h
    cases heq
    rcases ofToken_eq_ok hitem with ⟨op', rfl, heq, rfl⟩ | ⟨op', rfl, heq, rfl⟩ | ⟨e, heq⟩
    · cases heq
    · cases heq
      exact ⟨tokens, rfl, hrest⟩
    · cases heq

theorem exists_binary_of_row {tokens : List Token} {op : BinaryOp} {left right : List Item}
    (h : tokens.mapM (ofToken bracket atStart) p = .ok (left ++ .binary op :: right) q) :
    ∃ l r p₁, tokens = l ++ .binary op :: r ∧
      l.mapM (ofToken bracket atStart) p = .ok left p₁ ∧
      r.mapM (ofToken bracket atStart) p₁ = .ok right q := by
  obtain ⟨l, r, p₁, rfl, hl, hr⟩ := EStateM.exists_append_of_mapM_eq_ok h
  cases r with
  | nil => cases hr
  | cons t r =>
    obtain ⟨item, row, p₂, hitem, hrest, heq⟩ := EStateM.mapM_cons_eq_ok_iff.1 hr
    cases heq
    rcases ofToken_eq_ok hitem with ⟨op', rfl, heq, rfl⟩ | ⟨op', rfl, heq, rfl⟩ | ⟨e, heq⟩
    · cases heq
      exact ⟨l, r, p₂, rfl, hl, hrest⟩
    · cases heq
    · cases heq

theorem mapM_append_binary {l r : List Token} {op : BinaryOp} {left right : List Item} {p₁ : Pool}
    (hl : l.mapM (ofToken bracket atStart) p = .ok left p₁)
    (hr : r.mapM (ofToken bracket atStart) p₁ = .ok right q) :
    (l ++ .binary op :: r).mapM (ofToken bracket atStart) p =
      .ok (left ++ .binary op :: right) q := by
  refine EStateM.mapM_append_eq_ok_iff.2 ⟨left, _, p₁, hl, ?_, rfl⟩
  exact EStateM.mapM_cons_eq_ok_iff.2 ⟨_, right, p₁, rfl, hr, rfl⟩

/-- What a row stands for, the tokens it was made of stand for, and its constants were interned on
the way. -/
theorem derives_tokens {A : ∀ kind, List Token → Expr kind → Prop} {g : Grade} {kind : Kind}
    {row : List Item} {e : Expr kind} (h : Derives alphabet Atom g row e) {tokens : List Token}
    (hatom : ∀ t ∈ tokens, ∀ kind (e : Expr kind) p q,
      ofToken bracket atStart t p = .ok (.operand ⟨e⟩) q →
        A kind [t] e ∧ e.Interns p q ∧ e.Allowed atStart)
    (hrow : tokens.mapM (ofToken bracket atStart) p = .ok row q) :
    Derives Token.alphabet A g tokens e ∧ e.Interns p q ∧ e.Allowed atStart := by
  -- the pools on both sides of a part are its own, so they vary with the part
  induction h generalizing tokens p q with
  | atom h =>
    rw [h] at hrow
    obtain ⟨t, rfl, ht⟩ := exists_token_of_row hrow
    obtain ⟨hA, hintern, hallowed⟩ := hatom t (List.mem_singleton_self t) _ _ _ _ ht
    exact ⟨.atom hA, hintern, hallowed⟩
  | unary _ ih =>
    obtain ⟨rest, rfl, hrest⟩ := exists_unary_of_row hrow
    obtain ⟨hder, hintern, hallowed⟩ := ih (List.forall_mem_cons.1 hatom).2 hrest
    exact ⟨.unary hder, Expr.interns_unary.2 hintern, Expr.allowed_unary.2 hallowed⟩
  | product _ ih =>
    obtain ⟨hder, hintern, hallowed⟩ := ih hatom hrow
    exact ⟨.product hder, hintern, hallowed⟩
  | mul _ _ ihl ihr =>
    obtain ⟨l, r, p₁, rfl, hl, hr⟩ := exists_binary_of_row hrow
    obtain ⟨hatoml, hatomr⟩ := List.forall_mem_append.1 hatom
    obtain ⟨hderl, hinternl, hallowedl⟩ := ihl hatoml hl
    obtain ⟨hderr, hinternr, hallowedr⟩ := ihr (List.forall_mem_cons.1 hatomr).2 hr
    exact ⟨.mul hderl hderr, ⟨p₁, hinternl, hinternr⟩,
      Expr.allowed_binary.2 ⟨hallowedl, hallowedr⟩⟩
  | sum _ ih =>
    obtain ⟨hder, hintern, hallowed⟩ := ih hatom hrow
    exact ⟨.sum hder, hintern, hallowed⟩
  | additive hop _ _ ihl ihr =>
    obtain ⟨l, r, p₁, rfl, hl, hr⟩ := exists_binary_of_row hrow
    obtain ⟨hatoml, hatomr⟩ := List.forall_mem_append.1 hatom
    obtain ⟨hderl, hinternl, hallowedl⟩ := ihl hatoml hl
    obtain ⟨hderr, hinternr, hallowedr⟩ := ihr (List.forall_mem_cons.1 hatomr).2 hr
    exact ⟨.additive hop hderl hderr, ⟨p₁, hinternl, hinternr⟩,
      Expr.allowed_binary.2 ⟨hallowedl, hallowedr⟩⟩

/-- What tokens stand for, the row made of them stands for, if the constants are interned on the
way. -/
theorem exists_row {A : ∀ kind, List Token → Expr kind → Prop} {g : Grade} {kind : Kind}
    {tokens : List Token} {e : Expr kind} (h : Derives Token.alphabet A g tokens e)
    (hsingle : ∀ kind ts (e : Expr kind), A kind ts e → ∃ t, ts = [t])
    (hatom : ∀ t ∈ tokens, ∀ kind (e : Expr kind) p q, A kind [t] e → e.Interns p q →
      e.Allowed atStart → ofToken bracket atStart t p = .ok (.operand ⟨e⟩) q)
    (hintern : e.Interns p q) (hallowed : e.Allowed atStart) :
    ∃ row, tokens.mapM (ofToken bracket atStart) p = .ok row q ∧ Derives alphabet Atom g row e := by
  induction h generalizing p q with
  | atom h =>
    obtain ⟨t, rfl⟩ := hsingle _ _ _ h
    have ht := hatom t (List.mem_singleton_self t) _ _ _ _ h hintern hallowed
    exact ⟨_, EStateM.mapM_cons_eq_ok_iff.2 ⟨_, [], q, ht, rfl, rfl⟩, .atom rfl⟩
  | unary _ ih =>
    obtain ⟨row, hrow, hder⟩ := ih (List.forall_mem_cons.1 hatom).2
      (Expr.interns_unary.1 hintern) (Expr.allowed_unary.1 hallowed)
    exact ⟨_, EStateM.mapM_cons_eq_ok_iff.2 ⟨_, row, p, rfl, hrow, rfl⟩, .unary hder⟩
  | product _ ih =>
    obtain ⟨row, hrow, hder⟩ := ih hatom hintern hallowed
    exact ⟨row, hrow, .product hder⟩
  | mul _ _ ihl ihr =>
    obtain ⟨p₁, hl, hr⟩ := hintern
    obtain ⟨hallowedl, hallowedr⟩ := Expr.allowed_binary.1 hallowed
    obtain ⟨hatoml, hatomr⟩ := List.forall_mem_append.1 hatom
    obtain ⟨left, hleft, hderl⟩ := ihl hatoml hl hallowedl
    obtain ⟨right, hright, hderr⟩ := ihr (List.forall_mem_cons.1 hatomr).2 hr hallowedr
    exact ⟨_, mapM_append_binary hleft hright, .mul hderl hderr⟩
  | sum _ ih =>
    obtain ⟨row, hrow, hder⟩ := ih hatom hintern hallowed
    exact ⟨row, hrow, .sum hder⟩
  | additive hop _ _ ihl ihr =>
    obtain ⟨p₁, hl, hr⟩ := hintern
    obtain ⟨hallowedl, hallowedr⟩ := Expr.allowed_binary.1 hallowed
    obtain ⟨hatoml, hatomr⟩ := List.forall_mem_append.1 hatom
    obtain ⟨left, hleft, hderl⟩ := ihl hatoml hl hallowedl
    obtain ⟨right, hright, hderr⟩ := ihr (List.forall_mem_cons.1 hatomr).2 hr hallowedr
    exact ⟨_, mapM_append_binary hleft hright, .additive hop hderl hderr⟩

end Item

/-! ## Numbers and letters -/

theorem Expr.readNumber_eq_ok_iff {text : Text} {e : Expr .real} :
    Expr.readNumber text p = .ok e q ↔
      ∃ slot value, Numeral.float? text = some value ∧ e = .number slot value ∧ e.Interns p q := by
  unfold Expr.readNumber
  cases hvalue : Numeral.float? text with
  | none => exact ⟨nofun, nofun⟩
  | some value =>
    constructor
    · intro h
      obtain ⟨slot, p₁, hslot, h⟩ := EStateM.bind_eq_ok_iff.1 h
      cases h
      exact ⟨slot, value, rfl, rfl, hslot⟩
    · rintro ⟨slot, _, ⟨⟩, rfl, hslot⟩
      exact EStateM.bind_eq_ok_iff.2 ⟨slot, q, hslot, rfl⟩

namespace Expr

variable {excluded : Text} {kind : Kind} {e : Expr kind}

theorem simple_var_iff (hreserved : ∀ c ∈ Text.reserved, c ∈ excluded) {v : Variable} :
    Simple excluded kind [v.char] e ↔ (⟨e⟩ : Operand) = ⟨var v⟩ := by
  constructor
  · intro h
    generalize htext : [v.char] = text at h
    cases h with
    | var w =>
      obtain rfl : v = w := Variable.char_inj.1 (List.cons.inj htext).1
      rfl
    | number slot hchars hvalue =>
      have hv : v.char ∈ text := htext ▸ List.mem_singleton_self _
      exact absurd (hreserved _ (Text.char_mem_reserved v)) (hchars _ hv)
  · rintro ⟨⟩
    exact .var v

theorem simple_numeral_iff (hreserved : ∀ c ∈ Text.reserved, c ∈ excluded) {text : Text}
    (hchars : ∀ c ∈ text, c ∉ excluded) :
    Simple excluded kind text e ↔
      ∃ slot value, Numeral.float? text = some value ∧ (⟨e⟩ : Operand) = ⟨number slot value⟩ := by
  constructor
  · intro h
    cases h with
    | var v =>
      have hmem : v.char ∈ excluded := hreserved _ (Text.char_mem_reserved v)
      exact absurd hmem (hchars _ (List.mem_singleton_self _))
    | @number _ value slot _ hvalue => exact ⟨slot, value, hvalue, rfl⟩
  · rintro ⟨slot, value, hvalue, ⟨⟩⟩
    exact .number slot hchars hvalue

end Expr

theorem Item.ofToken_simple_iff {excluded : Text} {kind : Kind} {e : Expr kind}
    (hreserved : ∀ c ∈ Text.reserved, c ∈ excluded) {t : Token} (hsound : t.Sound)
    (hexcluded : ∀ c ∈ excluded, c ∉ Text.reserved → c ∉ t.spelling)
    (hbracket : ∀ text, t ≠ .bracketed text) :
    ofToken bracket atStart t p = .ok (.operand ⟨e⟩) q ↔
      t.Ends ∧ Expr.Simple excluded kind t.spelling e ∧ e.Interns p q ∧ e.Allowed atStart := by
  cases hsound with
  | binary op => exact ⟨nofun, fun h ↦ h.1.elim⟩
  | unary op => exact ⟨nofun, fun h ↦ h.1.elim⟩
  | var v =>
    rw [ofToken_var, Token.spelling, Expr.simple_var_iff hreserved]
    constructor
    · rintro ⟨hstart, ⟨⟩, rfl⟩
      exact ⟨trivial, rfl, rfl, Expr.allowed_var.2 hstart⟩
    · rintro ⟨-, ⟨⟩, rfl, hallowed⟩
      exact ⟨Expr.allowed_var.1 hallowed, rfl, rfl⟩
  | bracketed hopen hclose => exact absurd rfl (hbracket _)
  | @numeral text hne htext =>
    rw [Token.spelling, Expr.simple_numeral_iff hreserved
      fun c hc hmem ↦ hexcluded c hmem (htext c hc) hc]
    constructor
    · intro h
      obtain ⟨e', p₁, he', h⟩ := EStateM.bind_eq_ok_iff.1 h
      cases h
      obtain ⟨slot, value, hvalue, rfl, hintern⟩ := Expr.readNumber_eq_ok_iff.1 he'
      exact ⟨trivial, ⟨slot, value, hvalue, rfl⟩, hintern, Expr.allowed_number _ slot value⟩
    · rintro ⟨-, ⟨slot, value, hvalue, ⟨⟩⟩, hintern, -⟩
      refine EStateM.bind_eq_ok_iff.2 ⟨.number slot value, q, ?_, rfl⟩
      exact Expr.readNumber_eq_ok_iff.2 ⟨slot, value, hvalue, rfl, hintern⟩

/-! ## Operands -/

theorem Interning.lift_eq_ok_iff {α : Type} {x : Except FormulaError α} {a : α} :
    Interning.lift x p = .ok a q ↔ x = .ok a ∧ q = p := by
  cases x with
  | error e => exact ⟨nofun, nofun⟩
  | ok a' =>
    constructor
    · rintro ⟨⟩
      exact ⟨rfl, rfl⟩
    · rintro ⟨⟨⟩, rfl⟩
      rfl

theorem Interning.lift_bind_eq_ok_iff {α β : Type} {x : Except FormulaError α}
    {f : α → Interning β} {y : β} :
    (Interning.lift x >>= f) p = .ok y q ↔ ∃ a, x = .ok a ∧ f a p = .ok y q := by
  rw [EStateM.bind_eq_ok_iff]
  constructor
  · rintro ⟨a, _, ha, h⟩
    obtain ⟨rfl, rfl⟩ := lift_eq_ok_iff.1 ha
    exact ⟨a, rfl, h⟩
  · rintro ⟨a, ha, h⟩
    exact ⟨a, p, lift_eq_ok_iff.2 ⟨ha, rfl⟩, h⟩

theorem Operand.ofTokens_eq_ok_iff {tokens : List Token} {o : Operand} :
    Operand.ofTokens bracket atStart tokens p = .ok o q ↔
      ∃ row, tokens.mapM (Item.ofToken bracket atStart) p = .ok row q ∧
        Item.combine row = .ok o := by
  unfold Operand.ofTokens
  rw [EStateM.bind_eq_ok_iff]
  constructor
  · rintro ⟨row, p₁, hrow, h⟩
    obtain ⟨hcombine, rfl⟩ := Interning.lift_eq_ok_iff.1 h
    exact ⟨row, hrow, hcombine⟩
  · rintro ⟨row, hrow, hcombine⟩
    exact ⟨row, q, hrow, Interning.lift_eq_ok_iff.2 ⟨hcombine, rfl⟩⟩

/-- The text of scanned tokens is read by the grammar if every operand among them is an atom that is
spelled like its token. -/
theorem Operand.ofTokens_iff_derives {atom : ∀ kind, Text → Expr kind → Prop} {text : Text}
    {tokens : List Token} (hscan : Token.scan text = .ok tokens)
    (hatom : ∀ t ∈ tokens, ∀ kind (e : Expr kind) p q,
      Item.ofToken bracket atStart t p = .ok (.operand ⟨e⟩) q ↔
        t.Ends ∧ atom kind t.spelling e ∧ e.Interns p q ∧ e.Allowed atStart)
    (htoken : ∀ kind text (e : Expr kind), atom kind text e →
      ∃ t : Token, t.Sound ∧ t.Ends ∧ t.spelling = text)
    {kind : Kind} {e : Expr kind} :
    Operand.ofTokens bracket atStart tokens p = .ok ⟨e⟩ q ↔
      Derives Text.alphabet atom .sum text e ∧ e.Interns p q ∧ e.Allowed atStart := by
  obtain ⟨hcan, rfl⟩ := Token.canonical_of_outside (Token.outside_of_scan hscan)
  rw [ofTokens_eq_ok_iff]
  constructor
  · rintro ⟨row, hrow, hcombine⟩
    have hder := Item.derives_of_combine hcombine
    obtain ⟨hder, hintern, hallowed⟩ :=
      Item.derives_tokens (A := Token.Atom atom) hder (fun t ht kind e p q h ↦ by
        obtain ⟨hends, hspelling, hintern, hallowed⟩ := (hatom t ht kind e p q).1 h
        exact ⟨⟨t, rfl, hcan.sound t ht, hends, hspelling⟩, hintern, hallowed⟩) hrow
    exact ⟨Token.derives_spell hder, hintern, hallowed⟩
  · rintro ⟨hder, hintern, hallowed⟩
    obtain ⟨tokens', hspell, hder⟩ := Token.exists_derives_of_text hder htoken
    -- the text is scanned in one way only
    have hscan' := Token.scan_of_derives hder
    rw [hspell, hscan] at hscan'
    obtain rfl : tokens = tokens' := Except.ok.inj hscan'
    obtain ⟨row, hrow, hder⟩ :=
      Item.exists_row hder (fun _ _ _ ⟨t, h, _⟩ ↦ ⟨t, h⟩)
        (fun t ht kind e p q hA hintern hallowed ↦ by
          obtain ⟨_, ⟨⟩, -, hends, hspelling⟩ := hA
          exact (hatom t ht kind e p q).2 ⟨hends, hspelling, hintern, hallowed⟩) hintern hallowed
    exact ⟨row, hrow, Item.combine_of_derives hder⟩

/-! ## Parts of brackets -/

namespace Expr

theorem Simple.exists_token {excluded : Text} (hreserved : ∀ c ∈ Text.reserved, c ∈ excluded)
    {kind : Kind} {text : Text} {e : Expr kind} (h : Simple excluded kind text e) :
    ∃ t : Token, t.Sound ∧ t.Ends ∧ t.spelling = text := by
  cases h with
  | var v => exact ⟨.var v, .var v, trivial, rfl⟩
  | number slot hchars hvalue =>
    refine ⟨.numeral text, .numeral ?_ fun c hc hmem ↦ hchars c hc (hreserved c hmem), trivial, rfl⟩
    rintro rfl
    cases hvalue

theorem not_simple_bracketed {excluded : Text} (hreserved : ∀ c ∈ Text.reserved, c ∈ excluded)
    {t : Token} (hsound : t.Sound) {body : Text} (ht : t = .bracketed body) {kind : Kind}
    {e : Expr kind} : ¬Simple excluded kind t.spelling e := by
  subst ht
  cases hsound with
  | @bracketed inner _ _ =>
    intro h
    generalize htext : (Token.bracketed ('[' :: inner ++ [']'])).spelling = text at h
    cases h with
    | var v => simp [Token.spelling] at htext
    | number slot hchars _ =>
      subst htext
      exact hchars '[' List.mem_cons_self (hreserved _ (by decide))

theorem ReadsPart.not_mem {text : Text} {kind : Kind} {e : Expr kind} (h : ReadsPart text e) :
    ',' ∉ text ∧ '[' ∉ text ∧ ']' ∉ text := by
  have hchar : ∀ c ∈ text, c ≠ ',' ∧ c ≠ '[' ∧ c ≠ ']' := by
    refine h.forall_mem (fun op ↦ by cases op <;> decide) (fun op ↦ by cases op <;> decide) ?_
    rintro kind word e (v | ⟨slot, hchars, -⟩) c hc
    · rw [List.mem_singleton.1 hc]
      cases v <;> decide
    · refine ⟨?_, ?_, ?_⟩
      all_goals
        rintro rfl
        exact hchars _ hc (by decide)
  exact ⟨fun h ↦ (hchar _ h).1 rfl, fun h ↦ (hchar _ h).2.1 rfl, fun h ↦ (hchar _ h).2.2 rfl⟩

theorem ReadsPart.flat {text : Text} {kind : Kind} {e : Expr kind} (h : ReadsPart text e) :
    e.Flat := by
  refine h.forall_expr (fun op e he ↦ flat_unary.2 he) (fun op kind l r hl hr ↦ ⟨hl, hr⟩) ?_
  rintro kind word e (v | ⟨slot, -, -⟩) <;> trivial

end Expr

/-- The scanned text of a part is read by the grammar, if no bracket is read inside it. -/
theorem Operand.ofTokens_iff_readsPart (hbracket : ∀ text p e q, bracket text p ≠ .ok e q)
    {text : Text} (hcomma : ',' ∉ text) {tokens : List Token}
    (hscan : Token.scan text = .ok tokens) {o : Operand} :
    Operand.ofTokens bracket atStart tokens p = .ok o q ↔
      Expr.ReadsPart text o.expr ∧ o.expr.Interns p q ∧ o.expr.Allowed atStart := by
  have hreserved : ∀ c ∈ Text.reserved, c ∈ ',' :: Text.reserved := fun _ ↦ List.mem_cons_of_mem _
  obtain ⟨hcan, hspell⟩ := Token.canonical_of_outside (Token.outside_of_scan hscan)
  refine Operand.ofTokens_iff_derives hscan (fun t ht kind e p q ↦ ?_)
    fun kind text e h ↦ h.exists_token hreserved
  by_cases ht' : ∃ body, t = .bracketed body
  · obtain ⟨body, hbody⟩ := ht'
    refine ⟨fun h ↦ ?_, fun h ↦ ?_⟩
    · subst hbody
      obtain ⟨e', p₁, he', -⟩ := EStateM.bind_eq_ok_iff.1 h
      exact absurd he' (hbracket _ _ _ _)
    · exact absurd h.2.1 (Expr.not_simple_bracketed hreserved (hcan.sound t ht) hbody)
  · refine Item.ofToken_simple_iff hreserved (hcan.sound t ht) (fun c hc hc' hmem ↦ ?_)
      fun body hbody ↦ ht' ⟨body, hbody⟩
    obtain rfl | hc := List.mem_cons.1 hc
    · rw [← hspell] at hcomma
      exact hcomma (List.mem_flatMap.2 ⟨t, ht, hmem⟩)
    · exact hc' hc

theorem Expr.readPart_eq_ok_iff (hbracket : ∀ text p e q, bracket text p ≠ .ok e q)
    {whole text : Text} (hcomma : ',' ∉ text) {x : Expr .real} :
    Expr.readPart bracket atStart whole text p = .ok x q ↔
      Expr.ReadsPart text x ∧ x.Interns p q ∧ x.Allowed atStart := by
  unfold Expr.readPart
  rw [Interning.lift_bind_eq_ok_iff]
  constructor
  · rintro ⟨tokens, hscan, h⟩
    split at h
    · cases h
    · obtain ⟨o, p₁, ho, h⟩ := EStateM.bind_eq_ok_iff.1 h
      match o with
      | ⟨(e : Expr .real)⟩ =>
        cases h
        exact (Operand.ofTokens_iff_readsPart hbracket hcomma hscan).1 ho
      | ⟨(e : Expr .complex)⟩ => cases h
  · intro h
    obtain ⟨tokens, hspell, hder⟩ := Token.exists_derives_of_text h.1
      fun kind text e h ↦ h.exists_token fun _ ↦ List.mem_cons_of_mem _
    have hscan := Token.scan_of_derives hder
    rw [hspell] at hscan
    have ho : Operand.ofTokens bracket atStart tokens p = .ok ⟨x⟩ q :=
      (Operand.ofTokens_iff_readsPart hbracket hcomma hscan).2 h
    refine ⟨tokens, hscan, ?_⟩
    cases tokens with
    | nil => cases ho
    | cons t tokens => exact EStateM.bind_eq_ok_iff.2 ⟨⟨x⟩, q, ho, rfl⟩

/-! ## Brackets -/

/-- The text of a bracket only shows if the bracket has no constant. -/
theorem Constant.ofParts_congr {whole whole' : Text} {x y : Expr .real} {c : Constant}
    (h : Constant.ofParts p whole x y = .ok c) : Constant.ofParts p whole' x y = .ok c := by
  unfold Constant.ofParts at h ⊢
  split at h
  · next hvaries => rw [if_pos hvaries, h]
  · next hvaries =>
    rw [if_neg hvaries]
    cases hvalue : (Program.bracket x y).value p .zero with
    | ok z => rw [hvalue] at h; exact h
    | error fault => rw [hvalue] at h; cases h

/-- A bracket is read part by part. Brackets inside it are none. -/
theorem Expr.readBracket_eq_ok_iff {text : Text} {e : Expr .complex} :
    Expr.readBracket atStart 1 text p = .ok e q ↔
      ∃ left right slot x y, text.unbracketed = left ++ ',' :: right ∧
        Expr.ReadsPart left x ∧ Expr.ReadsPart right y ∧
        e = .bracket slot x y ∧ e.Interns p q ∧ e.Allowed atStart := by
  have hnone : ∀ text p e q, Expr.readBracket atStart 0 text p ≠ .ok e q := by
    rintro text p e q ⟨⟩
  constructor
  · intro h
    rw [readBracket] at h
    rcases hsplit : text.unbracketed.splitOn ',' with _ | ⟨left, _ | ⟨right, _ | ⟨more, rest⟩⟩⟩
    · rw [hsplit] at h; cases h
    · rw [hsplit] at h; cases h
    · rw [hsplit] at h
      obtain ⟨htext, hl, hr⟩ := Text.splitOn_eq_pair_iff.1 hsplit
      obtain ⟨x, p₁, hx, h⟩ := EStateM.bind_eq_ok_iff.1 h
      obtain ⟨y, p₂, hy, h⟩ := EStateM.bind_eq_ok_iff.1 h
      obtain ⟨_, _, ⟨⟩, h⟩ := EStateM.bind_eq_ok_iff.1 h
      obtain ⟨c, hc, h⟩ := Interning.lift_bind_eq_ok_iff.1 h
      obtain ⟨slot, p₃, hslot, h⟩ := EStateM.bind_eq_ok_iff.1 h
      cases h
      obtain ⟨hx, hinternx, hallowedx⟩ := (readPart_eq_ok_iff hnone hl).1 hx
      obtain ⟨hy, hinterny, hallowedy⟩ := (readPart_eq_ok_iff hnone hr).1 hy
      exact ⟨left, right, slot, x, y, htext, hx, hy, rfl,
        ⟨p₁, _, text, c, hinternx, hinterny, hc, hslot⟩,
        allowed_bracket.2 ⟨hallowedx, hallowedy⟩⟩
    · rw [hsplit] at h; cases h
  · rintro ⟨left, right, slot, x, y, htext, hx, hy, rfl, ⟨p₁, p₂, whole, c, hinternx, hinterny, hc,
      hslot⟩, hallowed⟩
    have hsplit := Text.splitOn_eq_pair_iff.2 ⟨htext, hx.not_mem.1, hy.not_mem.1⟩
    obtain ⟨hallowedx, hallowedy⟩ := allowed_bracket.1 hallowed
    rw [readBracket, hsplit]
    refine EStateM.bind_eq_ok_iff.2 ⟨x, p₁, ?_, EStateM.bind_eq_ok_iff.2 ⟨y, p₂, ?_,
      EStateM.bind_eq_ok_iff.2 ⟨p₂, p₂, rfl, Interning.lift_bind_eq_ok_iff.2
        ⟨c, Constant.ofParts_congr hc, EStateM.bind_eq_ok_iff.2 ⟨slot, q, hslot, rfl⟩⟩⟩⟩⟩
    · exact (readPart_eq_ok_iff hnone hx.not_mem.1).2 ⟨hx, hinternx, hallowedx⟩
    · exact (readPart_eq_ok_iff hnone hy.not_mem.1).2 ⟨hy, hinterny, hallowedy⟩

theorem Text.unbracketed_bracketed {body : Text} (hopen : '[' ∉ body) (hclose : ']' ∉ body) :
    Text.unbracketed ('[' :: body ++ [']']) = body := by
  have hdrop {c : Char} {text : Text} (h : c ∉ text) : text.dropWhile (· = c) = text := by
    cases text with
    | nil => rfl
    | cons d text =>
      rw [List.dropWhile_cons_of_neg]
      exact fun hd ↦ h (of_decide_eq_true hd ▸ List.mem_cons_self)
  have hfront : ('[' :: body ++ [']']).dropWhile (· = '[') = body ++ [']'] := by
    refine (List.dropWhile_cons_of_pos (by simp)).trans (hdrop ?_)
    simpa using hopen
  have hback : (body ++ [']']).reverse.dropWhile (· = ']') = body.reverse := by
    rw [List.reverse_append, List.reverse_singleton, List.singleton_append]
    refine (List.dropWhile_cons_of_pos (by simp)).trans (hdrop ?_)
    simpa using hclose
  rw [unbracketed, hfront, hback, List.reverse_reverse]

/-! ## Terms -/

theorem Expr.bracketText_eq (left right : Text) :
    Expr.bracketText left right = '[' :: (left ++ ',' :: right) ++ [']'] := by
  simp [bracketText]

/-- Of the tokens, only brackets are spelled with a bracket in front. -/
theorem Token.Sound.exists_bracketed {t : Token} (h : t.Sound) {rest : Text}
    (ht : t.spelling = '[' :: rest) : ∃ body, t = .bracketed body := by
  cases h with
  | binary op => cases op <;> cases ht
  | unary op => cases op <;> cases ht
  | var v => cases v <;> cases ht
  | @bracketed body _ _ => exact ⟨_, rfl⟩
  | @numeral text _ hchars =>
    rw [spelling] at ht
    subst ht
    exact absurd (by decide) (hchars '[' List.mem_cons_self)

theorem Item.ofToken_bracketed_iff {inner : Text} (hopen : '[' ∉ inner) (hclose : ']' ∉ inner)
    {kind : Kind} {e : Expr kind} :
    ofToken (Expr.readBracket atStart 1) atStart (.bracketed ('[' :: inner ++ [']'])) p =
        .ok (.operand ⟨e⟩) q ↔
      Expr.Atom kind ('[' :: inner ++ [']']) e ∧ e.Interns p q ∧ e.Allowed atStart := by
  constructor
  · intro h
    obtain ⟨e', p₁, he', h⟩ := EStateM.bind_eq_ok_iff.1 h
    cases h
    obtain ⟨left, right, slot, x, y, htext, hx, hy, rfl, hintern, hallowed⟩ :=
      Expr.readBracket_eq_ok_iff.1 he'
    rw [Text.unbracketed_bracketed hopen hclose] at htext
    refine ⟨?_, hintern, hallowed⟩
    rw [htext, ← Expr.bracketText_eq]
    exact .bracket slot hx hy
  · rintro ⟨hatom, hintern, hallowed⟩
    generalize htext : '[' :: inner ++ [']'] = text at hatom
    cases hatom with
    | simple h =>
      subst htext
      exact absurd h (Expr.not_simple_bracketed (fun _ h ↦ h) (.bracketed hopen hclose) rfl)
    | @bracket left right x y slot hx hy =>
      have hinner : inner = left ++ ',' :: right := by
        rw [Expr.bracketText_eq] at htext
        exact List.append_cancel_right (List.cons.inj htext).2
      have hread : Expr.readBracket atStart 1 ('[' :: inner ++ [']']) p =
          .ok (.bracket slot x y) q := by
        refine Expr.readBracket_eq_ok_iff.2
          ⟨left, right, slot, x, y, ?_, hx, hy, rfl, hintern, hallowed⟩
        rw [Text.unbracketed_bracketed hopen hclose, hinner]
      rw [← htext]
      exact EStateM.bind_eq_ok_iff.2 ⟨.bracket slot x y, q, hread, rfl⟩

theorem Item.ofToken_atom_iff {t : Token} (hsound : t.Sound) {kind : Kind} {e : Expr kind} :
    ofToken (Expr.readBracket atStart 1) atStart t p = .ok (.operand ⟨e⟩) q ↔
      t.Ends ∧ Expr.Atom kind t.spelling e ∧ e.Interns p q ∧ e.Allowed atStart := by
  by_cases ht : ∃ body, t = .bracketed body
  · obtain ⟨body, rfl⟩ := ht
    cases hsound with
    | bracketed hopen hclose =>
      rw [ofToken_bracketed_iff hopen hclose]
      exact ⟨fun h ↦ ⟨trivial, h⟩, fun h ↦ h.2⟩
  · rw [ofToken_simple_iff (fun _ h ↦ h) hsound (fun c hc hc' ↦ absurd hc hc')
      fun body hbody ↦ ht ⟨body, hbody⟩]
    refine and_congr_right fun _ ↦ and_congr_left fun _ ↦ ⟨.simple, fun h ↦ ?_⟩
    generalize htext : t.spelling = text at h
    cases h with
    | simple h => exact h
    | bracket slot hx hy =>
      rw [Expr.bracketText_eq] at htext
      exact absurd (hsound.exists_bracketed htext) ht

theorem Expr.Atom.exists_token {kind : Kind} {text : Text} {e : Expr kind}
    (h : Expr.Atom kind text e) : ∃ t : Token, t.Sound ∧ t.Ends ∧ t.spelling = text := by
  cases h with
  | simple h => exact h.exists_token fun _ h ↦ h
  | @bracket left right x y slot hx hy =>
    refine ⟨.bracketed (Expr.bracketText left right), ?_, trivial, rfl⟩
    rw [Expr.bracketText_eq]
    refine .bracketed ?_ ?_
    · simp [hx.not_mem.2.1, hy.not_mem.2.1]
    · simp [hx.not_mem.2.2, hy.not_mem.2.2]

namespace Expr

theorem Legible.shallow {kind : Kind} {e : Expr kind} (h : e.Legible) : e.Shallow := by
  induction e with
  | var v => trivial
  | number slot value => trivial
  | bracket slot x y =>
    obtain ⟨⟨left, hx⟩, right, hy⟩ := h
    exact ⟨hx.flat, hy.flat⟩
  | abs e ih => exact ih h
  | re e ih => exact ih h
  | im e ih => exact ih h
  | binary op left right ihl ihr => exact ⟨ihl h.1, ihr h.2⟩

theorem Reads.legible {kind : Kind} {text : Text} {e : Expr kind} (h : e.Reads text) :
    e.Legible := by
  refine h.forall_expr (fun op e he ↦ allBrackets_unary.2 he) (fun op kind l r hl hr ↦ ⟨hl, hr⟩) ?_
  intro kind word e h
  cases h with
  | simple h => cases h <;> trivial
  | bracket slot hx hy => exact ⟨⟨_, hx⟩, _, hy⟩

theorem Reads.shallow {kind : Kind} {text : Text} {e : Expr kind} (h : e.Reads text) : e.Shallow :=
  h.legible.shallow

end Expr

/-- The programs of a scanned term are those of the expressions that the grammar reads from its
text. -/
theorem Program.ofTokens_eq_ok_iff {text : Text} {tokens : List Token}
    (hscan : Token.scan text = .ok tokens) {program : Program} :
    Program.ofTokens atStart tokens p = .ok program q ↔
      ∃ e : Expr .complex, e.Reads text ∧ e.Interns p q ∧ e.Allowed atStart ∧
        program = e.program := by
  have htokens {o : Operand} :
      Operand.ofTokens (Expr.readBracket atStart 1) atStart tokens p = .ok o q ↔
        Expr.Reads text o.expr ∧ o.expr.Interns p q ∧ o.expr.Allowed atStart := by
    obtain ⟨hcan, hspell⟩ := Token.canonical_of_outside (Token.outside_of_scan hscan)
    exact Operand.ofTokens_iff_derives hscan
      (fun t ht kind e p q ↦ Item.ofToken_atom_iff (hcan.sound t ht))
      fun kind text e h ↦ h.exists_token
  constructor
  · intro h
    obtain ⟨o, p₁, ho, h⟩ := EStateM.bind_eq_ok_iff.1 h
    match o with
    | ⟨(e : Expr .complex)⟩ =>
      cases h
      obtain ⟨hreads, hintern, hallowed⟩ := htokens.1 ho
      exact ⟨e, hreads, hintern, hallowed, rfl⟩
    | ⟨(e : Expr .real)⟩ => cases h
  · rintro ⟨e, hreads, hintern, hallowed, rfl⟩
    exact EStateM.bind_eq_ok_iff.2 ⟨⟨e⟩, q, htokens.2 ⟨hreads, hintern, hallowed⟩, rfl⟩

theorem Expr.Reads.exists_scan {text : Text} {kind : Kind} {e : Expr kind} (h : e.Reads text) :
    ∃ tokens, Token.scan text = .ok tokens := by
  obtain ⟨tokens, hspell, hder⟩ :=
    Token.exists_derives_of_text h fun kind text e h ↦ h.exists_token
  exact ⟨tokens, hspell ▸ Token.scan_of_derives hder⟩

/-- Whatever tokens a program was made of, it is that of an expression whose brackets have been
read. -/
theorem Program.exists_legible_of_ofTokens {tokens : List Token} {program : Program}
    (h : Program.ofTokens atStart tokens p = .ok program q) :
    ∃ e : Expr .complex, e.Interns p q ∧ e.Legible ∧ e.Allowed atStart ∧ program = e.program := by
  obtain ⟨o, p₁, ho, h⟩ := EStateM.bind_eq_ok_iff.1 h
  obtain ⟨row, hrow, hcombine⟩ := Operand.ofTokens_eq_ok_iff.1 ho
  obtain ⟨hder, hintern, hallowed⟩ := Item.derives_tokens (A := fun kind _ e ↦ Expr.Legible e)
    (Item.derives_of_combine hcombine) (fun t _ kind e p q ht ↦ by
      cases t with
      | binary op => cases ht
      | unary op => cases ht
      | var v =>
        obtain ⟨hstart, heq, rfl⟩ := (Item.ofToken_var v).1 ht
        cases heq
        exact ⟨trivial, rfl, Expr.allowed_var.2 hstart⟩
      | numeral text =>
        obtain ⟨e', p₂, he', ht⟩ := EStateM.bind_eq_ok_iff.1 ht
        cases ht
        obtain ⟨slot, value, -, rfl, hintern⟩ := Expr.readNumber_eq_ok_iff.1 he'
        exact ⟨trivial, hintern, Expr.allowed_number _ slot value⟩
      | bracketed text =>
        obtain ⟨e', p₂, he', ht⟩ := EStateM.bind_eq_ok_iff.1 ht
        cases ht
        obtain ⟨left, right, slot, x, y, -, hx, hy, rfl, hintern, hallowed⟩ :=
          Expr.readBracket_eq_ok_iff.1 he'
        exact ⟨⟨⟨left, hx⟩, right, hy⟩, hintern, hallowed⟩) hrow
  have hlegible : Expr.Legible o.expr := hder.forall_expr
    (fun op e he ↦ Expr.allBrackets_unary.2 he) (fun op kind l r hl hr ↦ ⟨hl, hr⟩) fun _ _ _ h ↦ h
  match o with
  | ⟨(e : Expr .complex)⟩ =>
    cases h
    exact ⟨e, hintern, hlegible, hallowed, rfl⟩
  | ⟨(e : Expr .real)⟩ => cases h

theorem Program.exists_expr_of_ofTokens {tokens : List Token} {program : Program}
    (h : Program.ofTokens atStart tokens p = .ok program q) :
    ∃ e : Expr .complex, e.Interns p q ∧ e.Shallow ∧ e.Allowed atStart ∧ program = e.program := by
  obtain ⟨e, hintern, hlegible, hallowed, hprogram⟩ := exists_legible_of_ofTokens h
  exact ⟨e, hintern, hlegible.shallow, hallowed, hprogram⟩

end

/-! ## Letters of variables -/

theorem Derives.mentions_iff {atom : ∀ kind, Text → Expr kind → Prop} {v : Variable}
    (hatom : ∀ kind text (e : Expr kind), atom kind text e → (e.Mentions v ↔ v.char ∈ text))
    {g : Grade} {kind : Kind} {text : Text} {e : Expr kind}
    (h : Derives Text.alphabet atom g text e) : e.Mentions v ↔ v.char ∈ text := by
  -- the letter of an operator is none of a variable
  have hunary (op : UnaryOp) : v.char ≠ op.char := by cases v <;> cases op <;> decide
  have hbinary (op : BinaryOp) : v.char ≠ op.char := by cases v <;> cases op <;> decide
  have hjoin (op : BinaryOp) {kind : Kind} {l r : Expr kind} {left right : Text}
      (hl : l.Mentions v ↔ v.char ∈ left) (hr : r.Mentions v ↔ v.char ∈ right) :
      (Expr.binary op l r).Mentions v ↔ v.char ∈ left ++ op.char :: right := by
    rw [List.mem_append, List.mem_cons, or_iff_right (hbinary op), ← hl, ← hr, Expr.Mentions]
  induction h with
  | atom h => exact hatom _ _ _ h
  | @unary op word e _ ih =>
    exact Expr.mentions_unary.trans (ih.trans (List.mem_cons.trans (or_iff_right (hunary op))).symm)
  | product _ ih => exact ih
  | mul _ _ ihl ihr => exact hjoin .mul ihl ihr
  | sum _ ih => exact ih
  | @additive op _ _ _ _ _ _ _ _ ihl ihr => exact hjoin op ihl ihr

namespace Expr

variable {v : Variable} {kind : Kind} {text : Text} {e : Expr kind}

theorem Simple.mentions_iff {excluded : Text} (hreserved : ∀ c ∈ Text.reserved, c ∈ excluded)
    (h : Simple excluded kind text e) : e.Mentions v ↔ v.char ∈ text := by
  cases h with
  | var w =>
    rw [Mentions, List.mem_singleton, Variable.char_inj]
  | number slot hchars hvalue =>
    exact ⟨False.elim, fun h ↦ hchars _ h (hreserved _ (Text.char_mem_reserved v))⟩

theorem ReadsPart.mentions_iff (h : e.ReadsPart text) : e.Mentions v ↔ v.char ∈ text :=
  Derives.mentions_iff
    (fun _ _ _ h ↦ h.mentions_iff fun _ ↦ List.mem_cons_of_mem _) h

theorem Reads.mentions_iff (h : e.Reads text) : e.Mentions v ↔ v.char ∈ text := by
  refine Derives.mentions_iff (fun kind text e h ↦ ?_) h
  cases h with
  | simple h => exact h.mentions_iff fun _ ↦ id
  | @bracket left right x y slot hx hy =>
    have hmarks : v.char ≠ '[' ∧ v.char ≠ ',' ∧ v.char ≠ ']' := by cases v <;> decide
    obtain ⟨hopen, hcomma, hclose⟩ := hmarks
    rw [bracketText_eq]
    simp [Mentions, hx.mentions_iff, hy.mentions_iff, hopen, hcomma, hclose]

end Expr

end OrbitPlot
