import Mathlib.Data.List.Basic
import OrbitPlot.Proofs.Formula.Reading

/-!
# The grammar is unambiguous

A text stands for at most one expression, slots apart. A derivation that goes wrong cannot be told
from the text alone, but the sweeps tell: they make of a row the expression that is derived from it,
whichever that is. So it is enough that a text is scanned in one way and that an atom stands for one
expression, slots apart.

## Main statements

* `Expr.Reads.operand_eq`: what the text of a term stands for.
* `Expr.ReadsPart.operand_eq`: what the text of one part of a bracket stands for.
* `Expr.Reads.of_unslotted_eq`: it stands for that with any slots.
-/

namespace OrbitPlot

/-! ## Expressions without slots -/

namespace Expr

/-- The expression without its slots. -/
def unslotted {kind : Kind} : Expr kind → Expr kind
  | var v => var v
  | number _ value => number 0 value
  | bracket _ x y => bracket 0 x.unslotted y.unslotted
  | abs e => abs e.unslotted
  | re e => re e.unslotted
  | im e => im e.unslotted
  | binary op left right => binary op left.unslotted right.unslotted

theorem unslotted_unary {op : UnaryOp} {e : Expr op.operandKind} :
    (Expr.unary op e).unslotted = .unary op e.unslotted := by
  cases op <;> rfl

theorem value_unslotted (env : Variable → Point) {kind : Kind} (e : Expr kind) :
    e.unslotted.value env = e.value env := by
  induction e with
  | var v => rfl
  | number slot value => rfl
  | bracket slot x y ihx ihy => rw [unslotted, value, value, ihx, ihy]
  | abs e ih => exact congrArg Float.abs ih
  | re e ih => exact congrArg Point.re ih
  | im e ih => exact congrArg Point.im ih
  | binary op left right ihl ihr => rw [unslotted, value, value, ihl, ihr]

theorem source_unslotted {kind : Kind} (e : Expr kind) : e.unslotted.source = e.source := by
  induction e with
  | var v => rfl
  | number slot value => rfl
  | bracket slot x y ihx ihy => rw [unslotted, source, source, ihx, ihy]
  | abs e ih => rw [unslotted, source, source, ih]
  | re e ih => rw [unslotted, source, source, ih]
  | im e ih => rw [unslotted, source, source, ih]
  | binary op left right ihl ihr => rw [unslotted, source, source, ihl, ihr]

theorem varies_unslotted {kind : Kind} (e : Expr kind) : e.unslotted.varies = e.varies := by
  induction e with
  | var v => rfl
  | number slot value => rfl
  | bracket slot x y ihx ihy => rw [unslotted, varies, varies, ihx, ihy]
  | abs e ih => exact ih
  | re e ih => exact ih
  | im e ih => exact ih
  | binary op left right ihl ihr => rw [unslotted, varies, varies, ihl, ihr]

/-- The operand that an expression is, slots apart. -/
def operand {kind : Kind} (e : Expr kind) : Operand := ⟨e.unslotted⟩

theorem operand_inj {kind : Kind} {e e' : Expr kind} :
    e.operand = e'.operand ↔ e.unslotted = e'.unslotted :=
  ⟨fun h ↦ eq_of_heq (Operand.mk.inj h).2, congrArg Operand.mk⟩

end Expr

theorem Derives.unslotted {σ : Type} {A : Alphabet σ} {atom : ∀ kind, List σ → Expr kind → Prop}
    {g : Grade} {kind : Kind} {word : List σ} {e : Expr kind} (h : Derives A atom g word e) :
    Derives A (fun _ word e' ↦ ∃ e, atom _ word e ∧ e' = e.unslotted) g word e.unslotted := by
  induction h with
  | atom h => exact .atom ⟨_, h, rfl⟩
  | unary _ ih =>
    rw [Expr.unslotted_unary]
    exact .unary ih
  | product _ ih => exact .product ih
  | mul _ _ ihl ihr => exact .mul ihl ihr
  | sum _ ih => exact .sum ih
  | additive hop _ _ ihl ihr => exact .additive hop ihl ihr

namespace Expr

theorem exists_unary_of_unslotted_eq {op : UnaryOp} {e : Expr op.operandKind} {e' : Expr .real}
    (h : e'.unslotted = (Expr.unary op e).unslotted) :
    ∃ e₀ : Expr op.operandKind, e' = .unary op e₀ ∧ e₀.unslotted = e.unslotted := by
  cases op with
  | abs =>
    cases e' with
    | abs e₀ => exact ⟨e₀, rfl, abs.inj h⟩
    | _ => cases h
  | re =>
    cases e' with
    | re e₀ => exact ⟨e₀, rfl, re.inj h⟩
    | _ => cases h
  | im =>
    cases e' with
    | im e₀ => exact ⟨e₀, rfl, im.inj h⟩
    | _ => cases h

theorem exists_binary_of_unslotted_eq {kind : Kind} {op : BinaryOp} {l r e' : Expr kind}
    (h : e'.unslotted = (Expr.binary op l r).unslotted) :
    ∃ l' r', e' = .binary op l' r' ∧ l'.unslotted = l.unslotted ∧ r'.unslotted = r.unslotted := by
  cases e' with
  | binary op' l' r' =>
    obtain ⟨rfl, hl, hr⟩ := binary.inj h
    exact ⟨l', r', rfl, hl, hr⟩
  | _ => cases h

end Expr

theorem Derives.of_unslotted_eq {σ : Type} {A : Alphabet σ}
    {atom : ∀ kind, List σ → Expr kind → Prop}
    (hatom : ∀ kind word (e e' : Expr kind), atom kind word e → e'.unslotted = e.unslotted →
      atom kind word e')
    {g : Grade} {kind : Kind} {word : List σ} {e e' : Expr kind} (h : Derives A atom g word e)
    (he : e'.unslotted = e.unslotted) : Derives A atom g word e' := by
  induction h with
  | atom h => exact .atom (hatom _ _ _ _ h he)
  | unary _ ih =>
    obtain ⟨e₀, rfl, he₀⟩ := Expr.exists_unary_of_unslotted_eq he
    exact .unary (ih he₀)
  | product _ ih => exact .product (ih he)
  | mul _ _ ihl ihr =>
    obtain ⟨l', r', rfl, hl, hr⟩ := Expr.exists_binary_of_unslotted_eq he
    exact .mul (ihl hl) (ihr hr)
  | sum _ ih => exact .sum (ih he)
  | additive hop _ _ ihl ihr =>
    obtain ⟨l', r', rfl, hl, hr⟩ := Expr.exists_binary_of_unslotted_eq he
    exact .additive hop (ihl hl) (ihr hr)

/-! ## Tokens -/

namespace Token

variable {atom : ∀ kind, List Token → Expr kind → Prop} {kind kind' : Kind} {tokens : List Token}
  {e : Expr kind} {e' : Expr kind'}

/-- The member of a row that a token stands for, given the operands of atoms. -/
private def toItem (operand : Token → Operand) : Token → Item
  | binary op => .binary op
  | unary op => .unary op
  | t => .operand (operand t)

private theorem combine_of_derives {operand : Token → Operand}
    (hatom : ∀ kind tokens (e : Expr kind), atom kind tokens e →
      ∃ t, tokens = [t] ∧ t.Ends ∧ operand t = e.operand)
    (h : Derives alphabet atom .sum tokens e) :
    Item.combine (tokens.map (toItem operand)) = .ok e.operand := by
  rw [List.map_eq_flatMap]
  refine Item.combine_of_derives
    (h.unslotted.expand (fun op w hw ↦ hw) (fun op w hw ↦ hw) ?_ (.flatMap _ tokens))
  rintro kind _ _ row ⟨e, he, rfl⟩ hrow
  obtain ⟨t, rfl, hends, ht⟩ := hatom _ _ _ he
  obtain ⟨_, _, rfl, rfl, hnil⟩ := hrow.cons_inv
  cases hnil
  have hitem : toItem operand t = .operand (operand t) := by
    cases t with
    | binary op => exact hends.elim
    | unary op => exact hends.elim
    | _ => rfl
  rw [hitem, ht]
  rfl

/-- If a token is an atom for one expression only, slots apart, so are tokens in a row. -/
theorem operand_eq_of_derives
    (hsingle : ∀ kind tokens (e : Expr kind), atom kind tokens e → ∃ t, tokens = [t] ∧ t.Ends)
    (hatom : ∀ t kind kind' (e : Expr kind) (e' : Expr kind'), atom kind [t] e →
      atom kind' [t] e' → e.operand = e'.operand)
    (h : Derives alphabet atom .sum tokens e) (h' : Derives alphabet atom .sum tokens e') :
    e.operand = e'.operand := by
  classical
  -- with one operand for each token, both expressions are what the sweeps make of one row
  let operand (t : Token) : Operand :=
    if ht : ∃ o : Operand, atom o.kind [t] o.expr then ht.choose.expr.operand
    else ⟨.number 0 0⟩
  have hoperand : ∀ kind tokens (e : Expr kind), atom kind tokens e →
      ∃ t, tokens = [t] ∧ t.Ends ∧ operand t = e.operand := by
    intro kind tokens e he
    obtain ⟨t, rfl, hends⟩ := hsingle _ _ _ he
    have ht : ∃ o : Operand, atom o.kind [t] o.expr := ⟨⟨e⟩, he⟩
    refine ⟨t, rfl, hends, ?_⟩
    rw [show operand t = ht.choose.expr.operand from dif_pos ht]
    exact hatom _ _ _ _ _ ht.choose_spec he
  have hcombine := (combine_of_derives hoperand h).symm.trans (combine_of_derives hoperand h')
  exact Except.ok.inj hcombine

end Token

/-! ## Text -/

namespace Expr

variable {kind kind' : Kind} {text : Text} {e : Expr kind} {e' : Expr kind'}

private theorem operand_eq_of_derives {atom : ∀ kind, Text → Expr kind → Prop}
    (htoken : ∀ kind text (e : Expr kind), atom kind text e →
      ∃ t : Token, t.Sound ∧ t.Ends ∧ t.spelling = text)
    (hatom : ∀ text kind kind' (e : Expr kind) (e' : Expr kind'), atom kind text e →
      atom kind' text e' → e.operand = e'.operand)
    (h : Derives Text.alphabet atom .sum text e) (h' : Derives Text.alphabet atom .sum text e') :
    e.operand = e'.operand := by
  obtain ⟨tokens, hspell, hder⟩ := Token.exists_derives_of_text h htoken
  obtain ⟨tokens', hspell', hder'⟩ := Token.exists_derives_of_text h' htoken
  have hscan := Token.scan_of_derives hder
  rw [hspell, ← hspell', Token.scan_of_derives hder'] at hscan
  obtain rfl := Except.ok.inj hscan
  refine Token.operand_eq_of_derives ?_ ?_ hder hder'
  · rintro kind _ e ⟨t, rfl, -, hends, -⟩
    exact ⟨t, rfl, hends⟩
  · rintro _ kind kind' e e' ⟨t, ⟨⟩, -, -, h⟩ ⟨_, ⟨⟩, -, -, h'⟩
    exact hatom _ _ _ _ _ h h'

theorem Simple.operand_eq {excluded : Text} (hreserved : ∀ c ∈ Text.reserved, c ∈ excluded)
    (h : Simple excluded kind text e) (h' : Simple excluded kind' text e') :
    e.operand = e'.operand := by
  cases h with
  | var v =>
    cases (simple_var_iff hreserved).1 h'
    rfl
  | number slot hchars hvalue =>
    obtain ⟨slot', value', hvalue', heq⟩ := (simple_numeral_iff hreserved hchars).1 h'
    cases heq
    cases hvalue.symm.trans hvalue'
    rfl

theorem ReadsPart.operand_eq (h : e.ReadsPart text) (h' : e'.ReadsPart text) :
    e.operand = e'.operand := by
  have hreserved : ∀ c ∈ Text.reserved, c ∈ ',' :: Text.reserved := fun _ ↦ List.mem_cons_of_mem _
  exact operand_eq_of_derives (fun _ _ _ h ↦ h.exists_token hreserved)
    (fun _ _ _ _ _ h h' ↦ h.operand_eq hreserved h') h h'

private theorem Simple.ne_bracketText (h : Simple Text.reserved kind text e) (left right : Text) :
    text ≠ bracketText left right := by
  intro htext
  cases h with
  | var v => simp [bracketText] at htext
  | number slot hchars hvalue =>
    subst htext
    exact hchars '[' List.mem_cons_self (by decide)

/-- Where the comma of a bracket is shows if there is no other. -/
theorem bracketText_inj {left right left' right' : Text} (hl : ',' ∉ left) (hr : ',' ∉ right)
    (h : bracketText left right = bracketText left' right') : left = left' ∧ right = right' := by
  rw [bracketText_eq, bracketText_eq] at h
  obtain ⟨hleft, -, hright⟩ := (List.append_cons_inj_of_notMem hl hr).1
    (List.cons.inj (List.append_cancel_right h)).2
  exact ⟨hleft, hright⟩

theorem Atom.operand_eq (h : Atom kind text e) (h' : Atom kind' text e') :
    e.operand = e'.operand := by
  cases h with
  | simple h =>
    cases h' with
    | simple h' => exact h.operand_eq (fun _ h ↦ h) h'
    | bracket slot hx hy => exact absurd rfl (h.ne_bracketText _ _)
  | @bracket left right x y slot hx hy =>
    generalize htext : bracketText left right = text at h'
    cases h' with
    | simple h' => exact absurd htext.symm (h'.ne_bracketText _ _)
    | @bracket left' right' x' y' slot' hx' hy' =>
      obtain ⟨rfl, rfl⟩ := bracketText_inj hx.not_mem.1 hy.not_mem.1 htext
      have hx := operand_inj.1 (hx.operand_eq hx')
      have hy := operand_inj.1 (hy.operand_eq hy')
      rw [operand, operand, unslotted, unslotted, hx, hy]

/-- The text of a term stands for one expression, slots apart. -/
theorem Reads.operand_eq (h : e.Reads text) (h' : e'.Reads text) : e.operand = e'.operand :=
  operand_eq_of_derives (fun _ _ _ h ↦ h.exists_token) (fun _ _ _ _ _ h h' ↦ h.operand_eq h') h h'

/-! ## Other slots -/

variable {e₀ : Expr kind}

theorem Simple.of_unslotted_eq {excluded : Text} (h : Simple excluded kind text e)
    (he : e₀.unslotted = e.unslotted) : Simple excluded kind text e₀ := by
  cases h with
  | var v =>
    cases e₀ <;> cases he
    exact .var v
  | number slot hchars hvalue =>
    cases e₀ <;> cases he
    exact .number _ hchars hvalue

theorem ReadsPart.of_unslotted_eq (h : e.ReadsPart text) (he : e₀.unslotted = e.unslotted) :
    e₀.ReadsPart text :=
  Derives.of_unslotted_eq (fun _ _ _ _ h he ↦ h.of_unslotted_eq he) h he

theorem Reads.of_unslotted_eq (h : e.Reads text) (he : e₀.unslotted = e.unslotted) :
    e₀.Reads text := by
  refine Derives.of_unslotted_eq (fun kind text e e₀ h he ↦ ?_) h he
  cases h with
  | simple h => exact .simple (h.of_unslotted_eq he)
  | bracket slot hx hy =>
    cases e₀ with
    | bracket slot' x y =>
      obtain ⟨hxe, hye⟩ : x.unslotted = _ ∧ y.unslotted = _ := by simpa [unslotted] using he
      exact .bracket slot' (hx.of_unslotted_eq hxe) (hy.of_unslotted_eq hye)
    | _ => cases he

end Expr

end OrbitPlot
