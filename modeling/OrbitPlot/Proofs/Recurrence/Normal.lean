import OrbitPlot.Proofs.Formula.Reading

/-!
# The normal form of a term

The spelling of a program is the term that it was made of, token by token: letters and signs as they
were, every number written as short as possible, and every bracket put together again from its two
parts. No sweep moves anything, so this is so of any tokens, and of any pool that their constants
may be interned in.

The operands of the code are in the same order, although the operators are not: an instruction that
puts a value on a stack was made of the token in its place.

## Main statements

* `Item.flatMap_combine`: what sweeping preserves.
* `Expr.source_of_readBracket`: brackets in normal form.
* `Program.normal_of_ofTokens`: the spelling of a program, and the operands of its code.
-/

namespace OrbitPlot

/-! ## What the sweeps preserve -/

namespace Item

/-- What is told of the members of a row one after another is told of the expression that the row
stands for, if operators and their operands tell as much as what is made of them. -/
theorem flatMap_combine {α : Type} {f : Item → List α}
    (hunary : ∀ {op e o}, Operand.unary op e = .ok o →
      f (operand o) = f (unary op) ++ f (operand e))
    (hjoin : ∀ {op l r o}, Operand.join op l r = .ok o →
      f (operand o) = f (operand l) ++ f (binary op) ++ f (operand r))
    {row : List Item} {o : Operand} (h : combine row = .ok o) : f (operand o) = row.flatMap f := by
  obtain ⟨factors, hfactors, h⟩ := Except.bind_eq_ok_iff.1 h
  obtain ⟨products, hproducts, h⟩ := Except.bind_eq_ok_iff.1 h
  obtain ⟨sums, hsums, h⟩ := Except.bind_eq_ok_iff.1 h
  rw [← flatMap_bindUnary hunary hfactors, ← flatMap_joinBinary (fun _ ↦ hjoin) hproducts,
    ← flatMap_joinBinary (fun _ ↦ hjoin) hsums]
  split at h
  · cases h
  · cases h
    exact (List.append_nil _).symm
  · cases h

theorem text_combine {row : List Item} {o : Operand} (h : combine row = .ok o) :
    o.text = row.flatMap text :=
  flatMap_combine (f := text) Operand.text_of_unary
    (fun he ↦ by simp [text, Operand.text_of_join he]) h

end Item

/-! ## Normal forms -/

/-- The normal form of a token, given that of brackets: letters and signs stay as they are, and a
number is written as short as possible. -/
def Token.normal (bracket : Text → Text) : Token → Text
  | numeral text => (Numeral.float? text).elim text Numeral.plain.float
  | bracketed text => bracket text
  | t => t.spelling

/-- The normal form of a term, token by token. -/
def Text.normal (bracket : Text → Text) (text : Text) : Text :=
  match Token.scan text with
  | .ok tokens => tokens.flatMap (Token.normal bracket)
  | .error _ => text

/-- The normal form of a bracket, if there are brackets down to `depth` levels inside it: both parts
are terms. -/
def Text.normalBracket : (depth : Nat) → Text → Text
  | 0, text => text
  | depth + 1, text =>
    match text.unbracketed.splitOn ',' with
    | [left, right] =>
      Expr.bracketText (normal (normalBracket depth) left) (normal (normalBracket depth) right)
    | _ => text

/-! ## Spelling -/

section

variable {bracket : Text → Interning (Expr .complex)} {normal : Text → Text} {atStart : Bool}
  {p q : Pool}

namespace Item

theorem flatMap_of_mapM {α : Type} {f : Item → List α} {g : Token → List α}
    (hf : ∀ t item p q, ofToken bracket atStart t p = .ok item q → f item = g t)
    {tokens : List Token} {row : List Item}
    (h : tokens.mapM (ofToken bracket atStart) p = .ok row q) :
    row.flatMap f = tokens.flatMap g := by
  induction tokens generalizing row p with
  | nil => cases h; rfl
  | cons t tokens ih =>
    obtain ⟨item, row, p₁, hitem, hrow, rfl⟩ := EStateM.mapM_cons_eq_ok_iff.1 h
    rw [List.flatMap_cons, List.flatMap_cons, hf _ _ _ _ hitem, ih hrow]

variable (hbracket : ∀ text e p q, bracket text p = .ok e q → e.source = normal text)

include hbracket

theorem text_of_ofToken {t : Token} {item : Item} (h : ofToken bracket atStart t p = .ok item q) :
    item.text = t.normal normal := by
  cases t with
  | binary op => cases h; rfl
  | unary op => cases h; rfl
  | var v =>
    obtain ⟨-, rfl, -⟩ := (ofToken_var v).1 h
    rfl
  | numeral text =>
    obtain ⟨e, p₁, he, h⟩ := EStateM.bind_eq_ok_iff.1 h
    cases h
    obtain ⟨slot, value, hvalue, rfl, -⟩ := Expr.readNumber_eq_ok_iff.1 he
    rw [Token.normal, hvalue]
    rfl
  | bracketed text =>
    obtain ⟨e, p₁, he, h⟩ := EStateM.bind_eq_ok_iff.1 h
    cases h
    exact hbracket _ _ _ _ he

theorem text_of_ofTokens {tokens : List Token} {o : Operand}
    (h : Operand.ofTokens bracket atStart tokens p = .ok o q) :
    o.text = tokens.flatMap (Token.normal normal) := by
  obtain ⟨row, hrow, hcombine⟩ := Operand.ofTokens_eq_ok_iff.1 h
  rw [text_combine hcombine, flatMap_of_mapM (fun _ _ _ _ ↦ text_of_ofToken hbracket) hrow]

end Item

theorem Expr.source_of_readPart
    (hbracket : ∀ text e p q, bracket text p = .ok e q → e.source = normal text)
    {whole text : Text} {x : Expr .real} (h : readPart bracket atStart whole text p = .ok x q) :
    x.source = Text.normal normal text := by
  obtain ⟨tokens, hscan, h⟩ := Interning.lift_bind_eq_ok_iff.1 h
  split at h
  · cases h
  · obtain ⟨o, p₁, ho, h⟩ := EStateM.bind_eq_ok_iff.1 h
    rw [Text.normal, hscan]
    match o with
    | ⟨(e : Expr .real)⟩ =>
      cases h
      exact Item.text_of_ofTokens hbracket ho
    | ⟨(e : Expr .complex)⟩ => cases h

theorem Expr.source_of_readBracket {depth : Nat} {text : Text} {e : Expr .complex}
    (h : readBracket atStart depth text p = .ok e q) :
    e.source = Text.normalBracket depth text := by
  induction depth generalizing text e p q with
  | zero => cases h
  | succ depth ih =>
    rw [readBracket] at h
    rcases hsplit : text.unbracketed.splitOn ',' with _ | ⟨left, _ | ⟨right, _ | ⟨more, rest⟩⟩⟩
    · rw [hsplit] at h; cases h
    · rw [hsplit] at h; cases h
    · rw [hsplit] at h
      obtain ⟨x, p₁, hx, h⟩ := EStateM.bind_eq_ok_iff.1 h
      obtain ⟨y, p₂, hy, h⟩ := EStateM.bind_eq_ok_iff.1 h
      obtain ⟨_, _, ⟨⟩, h⟩ := EStateM.bind_eq_ok_iff.1 h
      obtain ⟨c, -, h⟩ := Interning.lift_bind_eq_ok_iff.1 h
      obtain ⟨slot, p₃, -, h⟩ := EStateM.bind_eq_ok_iff.1 h
      cases h
      have hbracket (text : Text) (e : Expr .complex) (p q : Pool)
          (h : readBracket atStart depth text p = .ok e q) :
          e.source = Text.normalBracket depth text := ih h
      have hleft := source_of_readPart hbracket hx
      have hright := source_of_readPart hbracket hy
      rw [Text.normalBracket, hsplit, source, hleft, hright]
    · rw [hsplit] at h; cases h

end

/-! ## Operands -/

/-- Whether an instruction puts a value on a stack that it has not taken from one. -/
def Instr.isOperand : Instr → Bool
  | load _ => true
  | real _ => true
  | complex _ => true
  | _ => false

namespace Token

/-- Whether a token stands for a value. -/
def isOperand : Token → Bool
  | var _ => true
  | numeral _ => true
  | bracketed _ => true
  | _ => false

/-- What an instruction puts on a stack is what the token stands for: the variable, the constant in
the slot of a number, or that in the slot of a bracket. -/
inductive Pushes (pool : Pool) : Token → Instr → Prop
  /-- The variable itself. -/
  | var (v : Variable) : Pushes pool (.var v) (.load v)
  /-- A slot that holds the number, or one that equals it. -/
  | numeral {text : Text} {slot : Nat} {x y : Float} (hx : Numeral.float? text = some x)
    (hy : pool.reals.get? slot = some y) (h : y = x ∨ y == x) :
    Pushes pool (.numeral text) (.real slot)
  /-- A slot that holds the bracket; if it has to be run, it is spelled as the bracket is. -/
  | bracketed {text : Text} {slot : Nat} {c : Constant} (hc : pool.complexes.get? slot = some c)
    (hsource : ∀ program, c = .varying program → program.source = Text.normalBracket 1 text) :
    Pushes pool (.bracketed text) (.complex slot)

theorem Pushes.mono {p q : Pool} (hpq : p.Extends q) {t : Token} {i : Instr} (h : t.Pushes p i) :
    t.Pushes q i := by
  cases h with
  | var v => exact .var v
  | numeral hx hy h => exact .numeral hx (hpq.reals hy) h
  | bracketed hc hsource => exact .bracketed (hpq.complexes hc) hsource

end Token

theorem Constant.source_of_ofParts {pool : Pool} {whole : Text} {x y : Expr .real}
    {program : Program} (h : ofParts pool whole x y = .ok (.varying program)) :
    program.source = Expr.bracketText x.source y.source := by
  unfold ofParts at h
  split at h
  · cases h
    rfl
  · split at h
    · cases h
    · cases h

/-- Constants that agree are spelled alike, if they have to be run. -/
theorem Constant.exists_source_of_eq_or_agrees {c : Constant} {program : Program}
    (h : Constant.varying program = c ∨ Constant.agrees (.varying program) c) :
    ∃ program', c = .varying program' ∧ program'.source = program.source := by
  rcases h with rfl | h
  · exact ⟨program, rfl, rfl⟩
  · cases c with
    | fixed z => cases h
    | varying program' => exact ⟨program', rfl, (of_decide_eq_true h).symm⟩

namespace Item

/-- The operands in the code of a member of a row. -/
def operands : Item → List Instr
  | operand e => e.expr.code.filter Instr.isOperand
  | _ => []

theorem operands_combine {row : List Item} {o : Operand} (h : combine row = .ok o) :
    o.expr.code.filter Instr.isOperand = row.flatMap operands := by
  have hdrop (code : List Instr) {i : Instr} (hi : i.isOperand = false) :
      (code ++ [i]).filter Instr.isOperand = code.filter Instr.isOperand := by
    simp [hi]
  refine flatMap_combine (f := operands) (fun {op e o} he ↦ ?_) (fun {op l r o} he ↦ ?_) h
  · obtain ⟨e, rfl, rfl⟩ := Operand.unary_eq_ok he
    cases op <;> exact hdrop _ rfl
  · obtain ⟨kind, l, r, rfl, rfl, rfl⟩ := Operand.join_eq_ok he
    exact (hdrop _ rfl).trans (by simp [operands])

section

variable {atStart : Bool} {p q : Pool}

theorem forall₂_operands_of_ofToken {t : Token} {item : Item}
    (h : ofToken (Expr.readBracket atStart 1) atStart t p = .ok item q) :
    p.Extends q ∧
      List.Forall₂ (Token.Pushes q) ([t].filter Token.isOperand) item.operands := by
  cases t with
  | binary op => cases h; exact ⟨.refl p, .nil⟩
  | unary op => cases h; exact ⟨.refl p, .nil⟩
  | var v =>
    obtain ⟨-, rfl, rfl⟩ := (ofToken_var v).1 h
    exact ⟨.refl _, .cons (.var v) .nil⟩
  | numeral text =>
    obtain ⟨e, p₁, he, h⟩ := EStateM.bind_eq_ok_iff.1 h
    cases h
    obtain ⟨slot, value, hvalue, rfl, hintern⟩ := Expr.readNumber_eq_ok_iff.1 he
    refine ⟨hintern.extends, .cons ?_ .nil⟩
    obtain ⟨reals, hslot, rfl⟩ := Pool.internReal_eq_ok_iff.1 hintern
    obtain ⟨y, hy, hagrees⟩ := Slots.get?_slot_of_intern hslot
    exact .numeral hvalue hy hagrees
  | bracketed text =>
    obtain ⟨e, p₁, he, h⟩ := EStateM.bind_eq_ok_iff.1 h
    cases h
    have hsource := Expr.source_of_readBracket he
    obtain ⟨left, right, slot, x, y, -, -, -, rfl, hintern, -⟩ := Expr.readBracket_eq_ok_iff.1 he
    refine ⟨hintern.extends, .cons ?_ .nil⟩
    obtain ⟨p₁, p₂, whole, c, -, -, hc, hslot⟩ := hintern
    obtain ⟨complexes, hplace, rfl⟩ := Pool.internComplex_eq_ok_iff.1 hslot
    obtain ⟨d, hd, hagrees⟩ := Slots.get?_slot_of_intern hplace
    refine .bracketed hd fun program hprogram ↦ ?_
    subst hprogram
    obtain ⟨program', rfl, heq⟩ := Constant.exists_source_of_eq_or_agrees hagrees
    rw [← heq, Constant.source_of_ofParts hc]
    exact hsource

theorem forall₂_operands_of_mapM {tokens : List Token} {row : List Item}
    (h : tokens.mapM (ofToken (Expr.readBracket atStart 1) atStart) p = .ok row q) :
    p.Extends q ∧ List.Forall₂ (Token.Pushes q) (tokens.filter Token.isOperand)
      (row.flatMap operands) := by
  induction tokens generalizing row p with
  | nil => cases h; exact ⟨.refl _, .nil⟩
  | cons t tokens ih =>
    obtain ⟨item, row, p₁, hitem, hrow, rfl⟩ := EStateM.mapM_cons_eq_ok_iff.1 h
    obtain ⟨hp, hitem⟩ := forall₂_operands_of_ofToken hitem
    obtain ⟨hp₁, hrow⟩ := ih hrow
    refine ⟨hp.trans hp₁, ?_⟩
    rw [List.flatMap_cons, ← List.singleton_append, List.filter_append]
    exact List.rel_append (hitem.imp fun _ _ hpushes ↦ hpushes.mono hp₁) hrow

end

end Item

/-! ## Programs -/

namespace Program

/-- **Reading leaves the spelling as it is.** No sweep changes the text of a row, whatever the row
and whichever operators it is for. So if a program can be made of some tokens, it is spelled as they
are in normal form, one after another, whatever is in the pool already; and the operands of its code
are those of the tokens, in the same order. -/
theorem normal_of_ofTokens :
    (∀ row swept, Item.bindUnary row = .ok swept →
      swept.flatMap Item.text = row.flatMap Item.text) ∧
    (∀ ops row swept, Item.joinBinary ops row = .ok swept →
      swept.flatMap Item.text = row.flatMap Item.text) ∧
    ∀ atStart tokens p q program, ofTokens atStart tokens p = .ok program q →
      program.source = tokens.flatMap (Token.normal (Text.normalBracket 1)) ∧
      List.Forall₂ (Token.Pushes q) (tokens.filter Token.isOperand)
        (program.code.filter Instr.isOperand) := by
  refine ⟨fun row swept ↦ Item.text_bindUnary, fun ops row swept ↦ Item.text_joinBinary,
    fun atStart tokens p q program h ↦ ?_⟩
  obtain ⟨o, p₁, ho, h⟩ := EStateM.bind_eq_ok_iff.1 h
  have hbracket (text : Text) (e : Expr .complex) (p q : Pool)
      (h : Expr.readBracket atStart 1 text p = .ok e q) :
      e.source = Text.normalBracket 1 text := Expr.source_of_readBracket h
  have htext := Item.text_of_ofTokens hbracket ho
  obtain ⟨row, hrow, hcombine⟩ := Operand.ofTokens_eq_ok_iff.1 ho
  have hcode := (Item.forall₂_operands_of_mapM hrow).2
  rw [← Item.operands_combine hcombine] at hcode
  match o with
  | ⟨(e : Expr .complex)⟩ =>
    cases h
    exact ⟨htext, hcode⟩
  | ⟨(e : Expr .real)⟩ => cases h

/-- The numbers `2.50` and `02.5` become the same text, so two brackets that have to be run share a
slot. -/
theorem normal_of_ofTokens_of_brackets :
    (∃ swept, Item.bindUnary [.unary .re, .operand ⟨.var .current⟩] = .ok swept ∧
      swept.flatMap Item.text = "rc".toList) ∧
    (∃ swept, Item.joinBinary [.mul] [.operand ⟨.var .current⟩, .binary .mul,
        .operand ⟨.var .previous⟩] = .ok swept ∧ swept.flatMap Item.text = "c*p".toList) ∧
    ∃ program q, ofTokens false [.bracketed "[rp,2.50]".toList, .binary .mul, .var .previous,
        .binary .add, .bracketed "[rp,02.5]".toList] {} = .ok program q ∧
      program.source = "[rp,2.5]*p+[rp,2.5]".toList ∧
      program.code.filter Instr.isOperand = [.complex 0, .load .previous, .complex 0] ∧
      Token.Pushes q (.bracketed "[rp,02.5]".toList) (.complex 0) := by
  obtain ⟨hunary, hbinary, htokens⟩ := normal_of_ofTokens
  have hbound : Item.bindUnary [.unary .re, .operand ⟨.var .current⟩] =
      .ok [.operand ⟨.re (.var .current)⟩] := rfl
  have hjoined : Item.joinBinary [.mul] [.operand ⟨.var .current⟩, .binary .mul,
      .operand ⟨.var .previous⟩] =
      .ok [.operand ⟨.binary .mul (.var .current) (.var .previous)⟩] := rfl
  refine ⟨⟨_, hbound, hunary _ _ hbound⟩, ⟨_, hjoined, hbinary _ _ _ hjoined⟩, ?_⟩
  have hcode : (match ofTokens false [.bracketed "[rp,2.50]".toList, .binary .mul, .var .previous,
      .binary .add, .bracketed "[rp,02.5]".toList] {} with
    | .ok program _ => some (program.code.filter Instr.isOperand)
    | .error _ _ => none) = some [.complex 0, .load .previous, .complex 0] := by
    decide +kernel
  cases hread : ofTokens false [.bracketed "[rp,2.50]".toList, .binary .mul, .var .previous,
      .binary .add, .bracketed "[rp,02.5]".toList] {} with
  | error e q =>
    rw [hread] at hcode
    cases hcode
  | ok program q =>
    rw [hread] at hcode
    have hoperands := Option.some.inj hcode
    obtain ⟨hsource, hpushes⟩ := htokens _ _ _ _ _ hread
    rw [hoperands] at hpushes
    have hlast := (List.forall₂_cons.1 (List.forall₂_cons.1 (List.forall₂_cons.1 hpushes).2).2).1
    exact ⟨program, q, rfl, hsource.trans (by decide +kernel), hoperands, hlast⟩

end Program

end OrbitPlot
