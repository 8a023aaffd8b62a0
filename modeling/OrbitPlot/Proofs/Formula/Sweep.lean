import OrbitPlot.Proofs.Formula.Grammar
import OrbitPlot.Proofs.Outcome

/-!
# Sweeping is reading by the grammar

The three sweeps make an expression of a row exactly when the grammar derives one from it, and it
is the same expression.

Soundness follows the row through the sweeps: after each, every member stands for a stretch of the
row it was made of (`Covers`), and the stretches of operands are derived at the grade that the sweep
has reached. Completeness follows the derivation: sweeping a row of two parts is sweeping the first
and going on from its last member, so what a sweep makes of a derived stretch is put together from
what it makes of the parts of that stretch.

## Main statement

`combine_eq_ok_iff`: what `combine` answers is what the grammar derives.
-/

namespace OrbitPlot

/-! ## One operator -/

namespace Operand

theorem unary_eq_ok {op : UnaryOp} {e o : Operand} (h : e.unary op = .ok o) :
    ∃ e' : Expr op.operandKind, e = ⟨e'⟩ ∧ o = ⟨Expr.unary op e'⟩ := by
  unfold unary at h
  split at h
  · next e' => cases h; exact ⟨e', rfl, rfl⟩
  · next e' => cases h; exact ⟨e', rfl, rfl⟩
  · next e' => cases h; exact ⟨e', rfl, rfl⟩
  · cases h

theorem unary_expr (op : UnaryOp) (e : Expr op.operandKind) :
    Operand.unary op ⟨e⟩ = .ok ⟨Expr.unary op e⟩ := by
  cases op <;> rfl

theorem join_eq_ok {op : BinaryOp} {l r o : Operand} (h : l.join op r = .ok o) :
    ∃ (kind : Kind) (l' r' : Expr kind), l = ⟨l'⟩ ∧ r = ⟨r'⟩ ∧ o = ⟨Expr.binary op l' r'⟩ := by
  unfold join at h
  split at h
  · next l r => cases h; exact ⟨.real, l, r, rfl, rfl, rfl⟩
  · next l r => cases h; exact ⟨.complex, l, r, rfl, rfl, rfl⟩
  · cases h

theorem join_expr (op : BinaryOp) {kind : Kind} (l r : Expr kind) :
    Operand.join op ⟨l⟩ ⟨r⟩ = .ok ⟨Expr.binary op l r⟩ := by
  cases kind <;> rfl

end Operand

namespace Item

/-! ## Equations of the sweeps -/

theorem bindUnary_operand (e : Operand) (row : List Item) :
    bindUnary (.operand e :: row) = (.operand e :: ·) <$> bindUnary row := by
  rw [bindUnary]
  cases bindUnary row <;> rfl

theorem bindUnary_binary (op : BinaryOp) (row : List Item) :
    bindUnary (.binary op :: row) = (.binary op :: ·) <$> bindUnary row := by
  rw [bindUnary]
  cases bindUnary row <;> rfl

theorem bindUnary_unary_eq_ok {op : UnaryOp} {row row' : List Item} :
    bindUnary (.unary op :: row) = .ok row' ↔
      ∃ e rest o, bindUnary row = .ok (.operand e :: rest) ∧ e.unary op = .ok o ∧
        row' = .operand o :: rest := by
  rw [bindUnary]
  constructor
  · intro h
    match hrow : bindUnary row with
    | .error err => simp [hrow, bind, Except.bind] at h
    | .ok [] => simp [hrow, bind, Except.bind, throw, throwThe, MonadExceptOf.throw] at h
    | .ok (.unary op' :: rest) =>
      simp [hrow, bind, Except.bind, throw, throwThe, MonadExceptOf.throw] at h
    | .ok (.binary op' :: rest) =>
      simp [hrow, bind, Except.bind, throw, throwThe, MonadExceptOf.throw] at h
    | .ok (.operand e :: rest) =>
      cases ho : e.unary op with
      | error err => simp [hrow, ho, bind, Except.bind] at h
      | ok o =>
        simp only [hrow, ho, bind, Except.bind] at h
        cases h
        exact ⟨e, rest, o, rfl, ho, rfl⟩
  · rintro ⟨e, rest, o, hrow, ho, rfl⟩
    simp only [hrow, ho, bind, Except.bind]
    rfl

variable {ops : List BinaryOp}

theorem joinAfter_skip {op : BinaryOp} (hop : op ∉ ops) (left : Item) (row : List Item) :
    joinAfter ops left (.binary op :: row) = (left :: ·) <$> joinAfter ops (.binary op) row := by
  rw [joinAfter.eq_def]
  simp only [if_neg hop]
  cases joinAfter ops (.binary op) row <;> rfl

theorem joinAfter_item {item : Item} (hitem : ∀ op, item ≠ .binary op) (left : Item)
    (row : List Item) :
    joinAfter ops left (item :: row) = (left :: ·) <$> joinAfter ops item row := by
  rw [joinAfter.eq_def]
  split
  · next heq => cases heq
  · next heq => cases heq; exact absurd rfl (hitem _)
  · next heq => cases heq; rw [map_eq_pure_bind]

theorem joinAfter_join {op : BinaryOp} (hop : op ∈ ops) {kind : Kind} (l r : Expr kind)
    (row : List Item) :
    joinAfter ops (.operand ⟨l⟩) (.binary op :: .operand ⟨r⟩ :: row) =
      joinAfter ops (.operand ⟨.binary op l r⟩) row := by
  rw [joinAfter, if_pos hop]
  simp only [Operand.join_expr, bind, Except.bind]

theorem joinBinary_item {item : Item} (hitem : ∀ op, item ≠ .binary op) (row : List Item) :
    joinBinary ops (item :: row) = joinAfter ops item row := by
  rw [joinBinary]
  exact hitem

theorem joinBinary_binary_eq_ok {op : BinaryOp} {row swept : List Item}
    (h : joinBinary ops (.binary op :: row) = .ok swept) :
    op ∉ ops ∧ joinAfter ops (.binary op) row = .ok swept := by
  rw [joinBinary] at h
  split at h
  · cases h
  · next hop => exact ⟨hop, h⟩

/-! ## Soundness -/

/-- What a member of a swept row stands for in the row before: an operand stands for a stretch that
derives it, an operator for itself. -/
inductive Covers (g : Grade) : Item → List Item → Prop
  | operand {kind row} {e : Expr kind} (h : Derives alphabet Atom g row e) :
    Covers g (.operand ⟨e⟩) row
  | unary (op : UnaryOp) : Covers g (.unary op) [.unary op]
  | binary (op : BinaryOp) : Covers g (.binary op) [.binary op]

theorem Covers.mono {g g' : Grade}
    (hlift : ∀ {kind row} {e : Expr kind}, Derives alphabet Atom g row e →
      Derives alphabet Atom g' row e)
    {item : Item} {row : List Item} (h : Covers g item row) : Covers g' item row := by
  cases h with
  | operand hder => exact .operand (hlift hder)
  | unary op => exact .unary op
  | binary op => exact .binary op

theorem expands_of_bindUnary {row row' : List Item} (h : bindUnary row = .ok row') :
    Expands (Covers .factor) row' row := by
  induction row generalizing row' with
  | nil => cases h; exact .nil
  | cons item row ih =>
    cases item with
    | operand e =>
      rw [bindUnary_operand, Except.map_eq_ok_iff] at h
      obtain ⟨bound, hbound, rfl⟩ := h
      exact .cons_letter (.operand (.atom rfl)) (ih hbound)
    | binary op =>
      rw [bindUnary_binary, Except.map_eq_ok_iff] at h
      obtain ⟨bound, hbound, rfl⟩ := h
      exact .cons_letter (.binary op) (ih hbound)
    | unary op =>
      -- the sweep goes from right to left, so the operator meets an operand that is swept
      obtain ⟨e, rest, o, hbound, ho, rfl⟩ := bindUnary_unary_eq_ok.1 h
      obtain ⟨e', rfl, rfl⟩ := Operand.unary_eq_ok ho
      obtain ⟨stretch, _, rfl, hcov, hrest⟩ := (ih hbound).cons_inv
      cases hcov with
      | operand hder => exact .cons (.operand (.unary hder)) hrest

/-- A sweep that forms results reaches the grade `g'` from the grade `g` if its operators join the
one to the other. -/
theorem expands_of_joinAfter {g g' : Grade}
    (hlift : ∀ {kind row} {e : Expr kind}, Derives alphabet Atom g row e →
      Derives alphabet Atom g' row e)
    (hjoin : ∀ {op kind row row'} {l r : Expr kind}, op ∈ ops → Derives alphabet Atom g' row l →
      Derives alphabet Atom g row' r →
      Derives alphabet Atom g' (row ++ .binary op :: row') (.binary op l r))
    {left : Item} {row row' : List Item} (h : joinAfter ops left row = .ok row')
    {stretch rest : List Item} (hleft : Covers g' left stretch)
    (hrest : Expands (Covers g) row rest) : Expands (Covers g') row' (stretch ++ rest) := by
  -- what is on the left has been swept and is at the new grade, what is on the right is still at
  -- the old one
  fun_induction joinAfter ops left row generalizing row' stretch rest with
  | case1 left =>
    cases h
    cases hrest
    exact .cons hleft .nil
  | case2 op hop l r row ih =>
    obtain ⟨o, ho, h⟩ := Except.bind_eq_ok_iff.1 h
    obtain ⟨kind, l, r, rfl, rfl, rfl⟩ := Operand.join_eq_ok ho
    obtain ⟨_, _, rfl, hsign, hrest'⟩ := hrest.cons_inv
    obtain ⟨_, _, rfl, hright, hrow⟩ := hrest'.cons_inv
    cases hsign
    cases hleft with
    | operand hl =>
      cases hright with
      | operand hr =>
        have hjoined := ih _ h (.operand (hjoin hop hl hr)) hrow
        rwa [List.append_assoc] at hjoined
  | case3 => cases h
  | case4 => cases h
  | case5 left op row hop ih =>
    rw [← map_eq_pure_bind, Except.map_eq_ok_iff] at h
    obtain ⟨swept, h, rfl⟩ := h
    obtain ⟨_, _, rfl, hitem, hrow⟩ := hrest.cons_inv
    exact .cons hleft (ih h (hitem.mono hlift) hrow)
  | case6 left item row hitem ih =>
    rw [← map_eq_pure_bind, Except.map_eq_ok_iff] at h
    obtain ⟨swept, h, rfl⟩ := h
    obtain ⟨_, _, rfl, hitem, hrow⟩ := hrest.cons_inv
    exact .cons hleft (ih h (hitem.mono hlift) hrow)

theorem expands_of_joinBinary {g g' : Grade}
    (hlift : ∀ {kind row} {e : Expr kind}, Derives alphabet Atom g row e →
      Derives alphabet Atom g' row e)
    (hjoin : ∀ {op kind row row'} {l r : Expr kind}, op ∈ ops → Derives alphabet Atom g' row l →
      Derives alphabet Atom g row' r →
      Derives alphabet Atom g' (row ++ .binary op :: row') (.binary op l r))
    {row row' word : List Item} (h : joinBinary ops row = .ok row')
    (hrow : Expands (Covers g) row word) : Expands (Covers g') row' word := by
  cases row with
  | nil =>
    cases h
    cases hrow
    exact .nil
  | cons item row =>
    obtain ⟨stretch, rest, rfl, hitem, hrest⟩ := hrow.cons_inv
    cases hitem with
    | operand hder =>
      rw [joinBinary_item (by nofun)] at h
      exact expands_of_joinAfter hlift hjoin h (.operand (hlift hder)) hrest
    | unary op =>
      rw [joinBinary_item (by nofun)] at h
      exact expands_of_joinAfter hlift hjoin h (.unary op) hrest
    | binary op =>
      exact expands_of_joinAfter hlift hjoin (joinBinary_binary_eq_ok h).2 (.binary op) hrest

theorem derives_of_combine {row : List Item} {o : Operand} (h : combine row = .ok o) :
    Derives alphabet Atom .sum row o.expr := by
  obtain ⟨factors, hfactors, h⟩ := Except.bind_eq_ok_iff.1 h
  obtain ⟨products, hproducts, h⟩ := Except.bind_eq_ok_iff.1 h
  obtain ⟨sums, hsums, h⟩ := Except.bind_eq_ok_iff.1 h
  have hrow := expands_of_bindUnary hfactors
  have hrow := expands_of_joinBinary .product (fun hop hl hr ↦ ?_) hproducts hrow
  · have hrow := expands_of_joinBinary .sum (fun hop hl hr ↦ ?_) hsums hrow
    · split at h
      · cases h
      · next e =>
        cases h
        obtain ⟨stretch, _, rfl, hcov, hnil⟩ := hrow.cons_inv
        cases hnil
        cases hcov with
        | operand hder => rwa [List.append_nil]
      · cases h
    · exact .additive (by rintro rfl; simp at hop) hl hr
  · rw [List.mem_singleton.1 hop]
    exact .mul hl hr

/-! ## Completeness -/

theorem bindUnary_append {row row' bound bound' : List Item} (h : bindUnary row = .ok bound)
    (h' : bindUnary row' = .ok bound') : bindUnary (row ++ row') = .ok (bound ++ bound') := by
  induction row generalizing bound with
  | nil => cases h; exact h'
  | cons item row ih =>
    cases item with
    | operand e =>
      rw [bindUnary_operand, Except.map_eq_ok_iff] at h
      obtain ⟨bound, hbound, rfl⟩ := h
      rw [List.cons_append, bindUnary_operand, ih hbound]
      rfl
    | binary op =>
      rw [bindUnary_binary, Except.map_eq_ok_iff] at h
      obtain ⟨bound, hbound, rfl⟩ := h
      rw [List.cons_append, bindUnary_binary, ih hbound]
      rfl
    | unary op =>
      obtain ⟨e, rest, o, hbound, ho, rfl⟩ := bindUnary_unary_eq_ok.1 h
      exact bindUnary_unary_eq_ok.2 ⟨e, rest ++ bound', o, ih hbound, ho, rfl⟩

/-- A sweep that forms results goes on from the last member of what it has made. -/
theorem joinAfter_append {left : Item} {row swept : List Item}
    (h : joinAfter ops left row = .ok swept) :
    ∃ before last, swept = before ++ [last] ∧
      ∀ row', joinAfter ops left (row ++ row') = (before ++ ·) <$> joinAfter ops last row' := by
  fun_induction joinAfter ops left row generalizing swept with
  | case1 left =>
    cases h
    refine ⟨[], left, rfl, fun row' ↦ ?_⟩
    rw [List.nil_append]
    cases joinAfter ops left row' <;> rfl
  | case2 op hop l r row ih =>
    obtain ⟨o, ho, h⟩ := Except.bind_eq_ok_iff.1 h
    obtain ⟨kind, l, r, rfl, rfl, rfl⟩ := Operand.join_eq_ok ho
    obtain ⟨before, last, rfl, hrow⟩ := ih _ h
    refine ⟨before, last, rfl, fun row' ↦ ?_⟩
    rw [List.cons_append, List.cons_append, joinAfter_join hop, hrow]
  | case3 => cases h
  | case4 => cases h
  | case5 left op row hop ih =>
    rw [← map_eq_pure_bind, Except.map_eq_ok_iff] at h
    obtain ⟨swept, h, rfl⟩ := h
    obtain ⟨before, last, rfl, hrow⟩ := ih h
    refine ⟨left :: before, last, rfl, fun row' ↦ ?_⟩
    rw [List.cons_append, joinAfter_skip hop, hrow, Except.map_map]
    rfl
  | case6 left item row hitem ih =>
    rw [← map_eq_pure_bind, Except.map_eq_ok_iff] at h
    obtain ⟨swept, h, rfl⟩ := h
    obtain ⟨before, last, rfl, hrow⟩ := ih h
    refine ⟨left :: before, last, rfl, fun row' ↦ ?_⟩
    rw [List.cons_append, joinAfter_item hitem, hrow, Except.map_map]
    rfl

theorem joinBinary_append {row swept : List Item} (h : joinBinary ops row = .ok swept)
    (hrow : row ≠ []) :
    ∃ before last, swept = before ++ [last] ∧
      ∀ row', joinBinary ops (row ++ row') = (before ++ ·) <$> joinAfter ops last row' := by
  obtain ⟨item, row, rfl⟩ := List.exists_cons_of_ne_nil hrow
  cases item with
  | binary op =>
    obtain ⟨hop, h⟩ := joinBinary_binary_eq_ok h
    simp only [List.cons_append, joinBinary, if_neg hop]
    exact joinAfter_append h
  | operand e =>
    rw [joinBinary_item (by nofun)] at h
    exact joinAfter_append h
  | unary op =>
    rw [joinBinary_item (by nofun)] at h
    exact joinAfter_append h

theorem joinBinary_skip {op : BinaryOp} (hop : op ∉ ops) {row row' swept swept' : List Item}
    (h : joinBinary ops row = .ok swept) (hrow : row ≠ [])
    (h' : joinBinary ops row' = .ok swept') :
    joinBinary ops (row ++ .binary op :: row') = .ok (swept ++ .binary op :: swept') := by
  obtain ⟨before, last, rfl, hall⟩ := joinBinary_append h hrow
  -- the sign stands on the left of what follows, and the sweep starts anew behind it
  have hsign : joinAfter ops (.binary op) row' = .ok (.binary op :: swept') := by
    match row' with
    | [] =>
      cases h'
      rfl
    | .binary op' :: row' =>
      obtain ⟨hop', h'⟩ := joinBinary_binary_eq_ok h'
      rw [joinAfter_skip hop', h']
      rfl
    | .operand e :: row' =>
      rw [joinBinary_item (by nofun)] at h'
      rw [joinAfter_item (by nofun), h']
      rfl
    | .unary op' :: row' =>
      rw [joinBinary_item (by nofun)] at h'
      rw [joinAfter_item (by nofun), h']
      rfl
  rw [hall, joinAfter_skip hop, hsign, List.append_assoc]
  rfl

theorem joinBinary_join {op : BinaryOp} (hop : op ∈ ops) {row : List Item} {kind : Kind}
    {l r : Expr kind} (h : joinBinary ops row = .ok [.operand ⟨l⟩]) :
    joinBinary ops (row ++ [.binary op, .operand ⟨r⟩]) = .ok [.operand ⟨.binary op l r⟩] := by
  obtain ⟨before, last, heq, hall⟩ := joinBinary_append h (by rintro rfl; cases h)
  cases before with
  | nil =>
    cases heq
    rw [hall, joinAfter_join hop]
    rfl
  | cons item before => simp at heq

private theorem factor_of_derives {kind : Kind} {row : List Item} {e : Expr kind}
    (h : Derives alphabet Atom .factor row e) : bindUnary row = .ok [.operand ⟨e⟩] := by
  generalize hg : Grade.factor = g at h
  induction h with
  | atom h => rw [h]; rfl
  | unary _ ih => exact bindUnary_unary_eq_ok.2 ⟨_, [], _, ih hg, Operand.unary_expr _ _, rfl⟩
  | _ => cases hg

private theorem product_of_derives {kind : Kind} {row : List Item} {e : Expr kind}
    (h : Derives alphabet Atom .product row e) :
    ∃ factors, bindUnary row = .ok factors ∧
      joinBinary [.mul] factors = .ok [.operand ⟨e⟩] := by
  generalize hg : Grade.product = g at h
  induction h with
  | product h => exact ⟨_, factor_of_derives h, rfl⟩
  | mul _ hr ih _ =>
    obtain ⟨factors, hl, hfactors⟩ := ih hg
    refine ⟨factors ++ [.binary .mul, .operand ⟨_⟩], ?_, joinBinary_join (by simp) hfactors⟩
    refine bindUnary_append hl ?_
    rw [alphabet, bindUnary_binary, factor_of_derives hr]
    rfl
  | _ => cases hg

private theorem sum_of_derives {kind : Kind} {row : List Item} {e : Expr kind}
    (h : Derives alphabet Atom .sum row e) :
    ∃ factors products, bindUnary row = .ok factors ∧
      joinBinary [.mul] factors = .ok products ∧
      joinBinary [.add, .sub] products = .ok [.operand ⟨e⟩] := by
  generalize hg : Grade.sum = g at h
  induction h with
  | sum h =>
    obtain ⟨factors, hfactors, hproduct⟩ := product_of_derives h
    exact ⟨factors, _, hfactors, hproduct, rfl⟩
  | @additive op _ _ _ _ _ hop _ hr ih _ =>
    obtain ⟨factors, products, hl, hproducts, hsum⟩ := ih hg
    obtain ⟨factors', hr, hproduct⟩ := product_of_derives hr
    -- the sign finds an operand on its left, so the second sweep does not begin with it
    have hne : factors ≠ [] := by
      rintro rfl
      cases hproducts
      cases hsum
    refine ⟨factors ++ .binary op :: factors', products ++ [.binary op, .operand ⟨_⟩], ?_,
      joinBinary_skip (by simpa using hop) hproducts hne hproduct,
      joinBinary_join (by cases op <;> simp_all) hsum⟩
    refine bindUnary_append hl ?_
    rw [alphabet, bindUnary_binary, hr]
    rfl
  | _ => cases hg

theorem combine_of_derives {kind : Kind} {row : List Item} {e : Expr kind}
    (h : Derives alphabet Atom .sum row e) : combine row = .ok ⟨e⟩ := by
  obtain ⟨factors, products, hfactors, hproducts, hsum⟩ := sum_of_derives h
  refine Except.bind_eq_ok_iff.2 ⟨_, hfactors, ?_⟩
  refine Except.bind_eq_ok_iff.2 ⟨_, hproducts, ?_⟩
  exact Except.bind_eq_ok_iff.2 ⟨_, hsum, rfl⟩

/-- The sweeps make an expression of a row if and only if the grammar derives it. -/
theorem combine_eq_ok_iff {kind : Kind} {row : List Item} {e : Expr kind} :
    combine row = .ok ⟨e⟩ ↔ Derives alphabet Atom .sum row e :=
  ⟨derives_of_combine, combine_of_derives⟩

end Item

end OrbitPlot
