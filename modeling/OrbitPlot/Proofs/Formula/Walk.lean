import Mathlib.Data.List.Induction
import OrbitPlot.Proofs.Formula.Fault
import OrbitPlot.Proofs.Formula.Sweep

/-!
# Sweeps in place

A sweep can be done in place, by walking along the row by index, taking operands out on the way:
the first sweep from the last place down to the first, the others upwards, staying where they are
whenever they have formed a result. The row shrinks under such a walk, and so it might look at
places that the row does not have any more, skip some, or never come to the end. It does not: it
ends with what the sweep makes of the row.

So after a sweep, no operator of its kind is left, and all others are; after all three, there are
only operands.

## Main statements

* `walkUnary_eq`, `walkBinary_eq`: a walk ends with what the sweep makes of the row.
* `sweeps_complete`: what is left after the sweeps.
-/

namespace OrbitPlot

namespace Item

/-! ## Walks -/

/-- What comes of one round of a walk. -/
inductive Round where
  /-- A place was used that the row does not have. -/
  | outside
  /-- The sweep fails. -/
  | failed (e : FormulaError)
  /-- The row has become this one, and the walk goes on from a place. -/
  | onward (row : List Item) (index : Nat)

/-- How a walk ends. -/
inductive Walked where
  /-- A place was used that the row does not have. -/
  | outside
  /-- It has not come to the end of the row. -/
  | unfinished
  /-- The sweep is done, or has failed. -/
  | done (result : Except FormulaError (List Item))

/-- Takes an operand out of a row, if there is one at a place. -/
def takeOperand? (row : List Item) (index : Nat) : Option (Operand × List Item) :=
  match row[index]? with
  | some (operand e) => some (e, row.eraseIdx index)
  | _ => none

/-- Puts an operand in a place of a row, and goes on from another place. -/
def putOperand (row : List Item) (index : Nat) (e : Operand) (next : Nat) : Round :=
  if index < row.length then .onward (row.set index (operand e)) next else .outside

/-- Gives the operator at a place its operand, if there is an operator on one value. -/
def roundUnary (row : List Item) (index : Nat) : Round :=
  match row[index]? with
  | none => .outside
  | some (unary op) =>
    match takeOperand? row (index + 1) with
    | none => .failed (.noOperand op)
    | some (e, row) =>
      match e.unary op with
      | .error error => .failed error
      | .ok e => putOperand row index e index
  | some _ => .onward row index

/-- The first sweep, through all places below a place, the last of them first. -/
def walkUnary : Nat → List Item → Walked
  | 0, row => .done (.ok row)
  | index + 1, row =>
    match roundUnary row index with
    | .outside => .outside
    | .failed e => .done (.error e)
    | .onward row _ => walkUnary index row

/-- Forms the result of the operator at a place, if there is one of these operators. The operator
then slides into the place of its left operand, so the next place to look at is the same. -/
def roundBinary (ops : List BinaryOp) (row : List Item) (index : Nat) : Round :=
  match row[index]? with
  | none => .outside
  | some (binary op) =>
    if op ∈ ops then
      if index = 0 then .failed (.nothingOnLeft op)
      else
        match row[index - 1]? with
        | none => .outside
        | some (operand _) =>
          match takeOperand? row (index + 1) with
          | none => .failed (.nothingOnRight op)
          | some (r, row) =>
            match takeOperand? row (index - 1) with
            | none => .failed (.nothingOnLeft op)
            | some (l, row) =>
              match l.join op r with
              | .error error => .failed error
              | .ok e => putOperand row (index - 1) e index
        | some _ => .failed (.nothingOnLeft op)
    else .onward row (index + 1)
  | some _ => .onward row (index + 1)

/-- A sweep that forms results, for a number of rounds at most. -/
def walkBinary (ops : List BinaryOp) : (rounds : Nat) → List Item → (index : Nat) → Walked
  | 0, row, index => if index < row.length then .unfinished else .done (.ok row)
  | rounds + 1, row, index =>
    if index < row.length then
      match roundBinary ops row index with
      | .outside => .outside
      | .failed e => .done (.error e)
      | .onward row index => walkBinary ops rounds row index
    else .done (.ok row)

/-! ## Places -/

variable (before : List Item)

theorem getElem?_place (item : Item) (row : List Item) :
    (before ++ item :: row)[before.length]? = some item := by
  simp

theorem getElem?_next (item item' : Item) (row : List Item) :
    (before ++ item :: item' :: row)[before.length + 1]? = some item' := by
  simp

theorem takeOperand?_operand (e : Operand) (row : List Item) :
    takeOperand? (before ++ operand e :: row) before.length = some (e, before ++ row) := by
  rw [takeOperand?, getElem?_place]
  simp [List.eraseIdx_append_of_length_le]

theorem takeOperand?_next (item : Item) (e : Operand) (row : List Item) :
    takeOperand? (before ++ item :: operand e :: row) (before.length + 1) =
      some (e, before ++ item :: row) := by
  simpa using takeOperand?_operand (before ++ [item]) e row

theorem takeOperand?_next_eq_none (item : Item) {row : List Item}
    (h : ∀ e row', row ≠ operand e :: row') :
    takeOperand? (before ++ item :: row) (before.length + 1) = none := by
  have hnext : (before ++ item :: row)[before.length + 1]? = row[0]? := by
    simp [List.getElem?_append_right]
  rw [takeOperand?, hnext]
  match row with
  | [] => rfl
  | operand e :: row => exact absurd rfl (h e row)
  | unary op :: row => rfl
  | binary op :: row => rfl

theorem putOperand_place (item : Item) (row : List Item) (e : Operand) (next : Nat) :
    putOperand (before ++ item :: row) before.length e next =
      .onward (before ++ operand e :: row) next := by
  simp [putOperand]

/-! ## The first sweep -/

/-- What the first sweep does when it comes to a member of the row, the rest of it being swept. -/
def bindItem : Item → List Item → Except FormulaError (List Item)
  | unary op, operand e :: row => do return operand (← e.unary op) :: row
  | unary op, _ => throw (.noOperand op)
  | item, row => return item :: row

theorem bindUnary_cons (item : Item) (row : List Item) :
    bindUnary (item :: row) = bindUnary row >>= bindItem item := rfl

theorem bindUnary_append_of_error {row : List Item} {e : FormulaError}
    (h : bindUnary row = .error e) : bindUnary (before ++ row) = .error e := by
  induction before with
  | nil => exact h
  | cons item before ih =>
    rw [List.cons_append, bindUnary_cons, ih]
    rfl

theorem roundUnary_place (item : Item) (row : List Item) :
    roundUnary (before ++ item :: row) before.length =
      match bindItem item row with
      | .error e => .failed e
      | .ok row' => .onward (before ++ row') before.length := by
  rw [roundUnary, getElem?_place]
  fun_cases bindItem item row with
  | case1 op e row =>
    simp only [takeOperand?_next]
    cases he : e.unary op with
    | error e' => rfl
    | ok o => exact putOperand_place before (unary op) row o _
  | case2 op row h =>
    simp only [takeOperand?_next_eq_none before _ h]
    rfl
  | case3 item row _ h =>
    cases item with
    | unary op => exact absurd rfl (h op)
    | operand e => rfl
    | binary op => rfl

theorem walkUnary_append {row bound : List Item} (h : bindUnary row = .ok bound) :
    walkUnary before.length (before ++ bound) = .done (bindUnary (before ++ row)) := by
  induction before using List.reverseRecOn generalizing row bound with
  | nil => exact (congrArg Walked.done h).symm
  | append_singleton before item ih =>
    rw [List.append_assoc, List.append_assoc, List.length_append, List.length_singleton, walkUnary,
      List.singleton_append, roundUnary_place, List.singleton_append]
    cases hitem : bindItem item bound with
    | error e =>
      have hrow : bindUnary (item :: row) = .error e := by rw [bindUnary_cons, h]; exact hitem
      exact congrArg Walked.done (bindUnary_append_of_error before hrow).symm
    | ok bound' =>
      have hrow : bindUnary (item :: row) = .ok bound' := by rw [bindUnary_cons, h]; exact hitem
      exact ih hrow

theorem walkUnary_eq (row : List Item) : walkUnary row.length row = .done (bindUnary row) := by
  have hrow := walkUnary_append row (show bindUnary [] = .ok [] from rfl)
  rwa [List.append_nil] at hrow

/-! ## The sweeps that form results -/

variable {ops : List BinaryOp}

theorem roundBinary_skip {item : Item} (h : ∀ op ∈ ops, item ≠ binary op) (left : Item)
    (row : List Item) : roundBinary ops (before ++ left :: item :: row) (before.length + 1) =
      .onward (before ++ left :: item :: row) (before.length + 2) := by
  rw [roundBinary, getElem?_next]
  cases item with
  | binary op => exact if_neg fun hop ↦ h op hop rfl
  | operand e => rfl
  | unary op => rfl

theorem roundBinary_join {op : BinaryOp} (hop : op ∈ ops) (l r : Operand) (row : List Item) :
    roundBinary ops (before ++ operand l :: binary op :: operand r :: row) (before.length + 1) =
      match l.join op r with
      | .error e => .failed e
      | .ok e => .onward (before ++ operand e :: row) (before.length + 1) := by
  have hright : takeOperand? (before ++ operand l :: binary op :: operand r :: row)
      (before.length + 1 + 1) = some (r, before ++ operand l :: binary op :: row) := by
    simpa using takeOperand?_next (before ++ [operand l]) (binary op) r row
  simp only [roundBinary, getElem?_next, if_pos hop, Nat.add_sub_cancel, getElem?_place,
    Nat.succ_ne_zero, if_false, hright, takeOperand?_operand]
  cases l.join op r with
  | error e => rfl
  | ok e => exact putOperand_place before (binary op) row e _

theorem roundBinary_nothingOnRight {op : BinaryOp} (hop : op ∈ ops) (l : Operand)
    {row : List Item} (h : ∀ r row', row ≠ operand r :: row') :
    roundBinary ops (before ++ operand l :: binary op :: row) (before.length + 1) =
      .failed (.nothingOnRight op) := by
  have hright : takeOperand? (before ++ operand l :: binary op :: row)
      (before.length + 1 + 1) = none := by
    simpa using takeOperand?_next_eq_none (before ++ [operand l]) (binary op) h
  simp only [roundBinary, getElem?_next, if_pos hop, Nat.add_sub_cancel, getElem?_place,
    Nat.succ_ne_zero, if_false, hright]

theorem roundBinary_nothingOnLeft {op : BinaryOp} (hop : op ∈ ops) {left : Item}
    (h : ∀ l, left ≠ operand l) (row : List Item) :
    roundBinary ops (before ++ left :: binary op :: row) (before.length + 1) =
      .failed (.nothingOnLeft op) := by
  simp only [roundBinary, getElem?_next, if_pos hop, Nat.add_sub_cancel, getElem?_place,
    Nat.succ_ne_zero, if_false]

theorem walkBinary_of_le {row : List Item} {index : Nat} (h : row.length ≤ index) (rounds : Nat) :
    walkBinary ops rounds row index = .done (.ok row) := by
  cases rounds <;> exact if_neg (Nat.not_lt.2 h)

theorem walkBinary_next {left item : Item} {row : List Item} {rounds : Nat}
    (h : (item :: row).length ≤ rounds) :
    walkBinary ops rounds (before ++ left :: item :: row) (before.length + 1) =
      match roundBinary ops (before ++ left :: item :: row) (before.length + 1) with
      | .outside => .outside
      | .failed e => .done (.error e)
      | .onward row index => walkBinary ops (rounds - 1) row index := by
  cases rounds with
  | zero => cases h
  | succ rounds => exact if_pos (by simp)

theorem walkBinary_skip {left item : Item} (hitem : ∀ op ∈ ops, item ≠ binary op) {row : List Item}
    {rounds : Nat} (h : (item :: row).length ≤ rounds)
    (hrow : walkBinary ops (rounds - 1) (before ++ [left] ++ item :: row)
      ((before ++ [left]).length + 1) =
        .done ((before ++ [left] ++ ·) <$> joinAfter ops item row)) :
    walkBinary ops rounds (before ++ left :: item :: row) (before.length + 1) =
      .done ((before ++ ·) <$> (left :: ·) <$> joinAfter ops item row) := by
  rw [walkBinary_next before h, roundBinary_skip before hitem, Except.map_map]
  simpa using hrow

/-- A walk that stands behind `left` does to the rest of the row what the sweep does. -/
theorem walkBinary_append {left : Item} {row : List Item} {rounds : Nat}
    (h : row.length ≤ rounds) :
    walkBinary ops rounds (before ++ left :: row) (before.length + 1) =
      .done ((before ++ ·) <$> joinAfter ops left row) := by
  -- what is before `left` has been passed and is not looked at any more
  fun_induction joinAfter ops left row generalizing before rounds with
  | case1 left => exact walkBinary_of_le (by simp) rounds
  | case2 op hop l r row ih =>
    rw [walkBinary_next before h, roundBinary_join before hop]
    cases ho : l.join op r with
    | error e => rfl
    | ok e =>
      refine ih e before ?_
      rw [List.length_cons, List.length_cons] at h
      omega
  | case3 op row hop l hrow =>
    rw [walkBinary_next before h, roundBinary_nothingOnRight before hop l hrow]
    rfl
  | case4 left op row hop hleft =>
    rw [walkBinary_next before h, roundBinary_nothingOnLeft before hop hleft]
    rfl
  | case5 left op row hop ih =>
    rw [← map_eq_pure_bind]
    refine walkBinary_skip before ?_ h (ih _ (Nat.le_pred_of_lt h))
    rintro op' hop' ⟨⟩
    exact hop hop'
  | case6 left item row hitem ih =>
    rw [← map_eq_pure_bind]
    exact walkBinary_skip before (fun op _ ↦ hitem op) h (ih _ (Nat.le_pred_of_lt h))

theorem walkBinary_eq {row : List Item} {rounds : Nat} (h : row.length ≤ rounds) :
    walkBinary ops rounds row 0 = .done (joinBinary ops row) := by
  match row, rounds with
  | [], rounds => exact walkBinary_of_le (Nat.le_refl 0) rounds
  | item :: row, rounds + 1 =>
    have hrow : walkBinary ops rounds (item :: row) 1 = .done (joinAfter ops item row) := by
      have hempty : ([] ++ · : List Item → List Item) <$> joinAfter ops item row =
          joinAfter ops item row := id_map _
      rw [← hempty]
      exact walkBinary_append [] (Nat.le_of_succ_le_succ h)
    cases item with
    | operand e => exact hrow
    | unary op => exact hrow
    | binary op =>
      rw [walkBinary, if_pos (by simp)]
      by_cases hop : op ∈ ops
      · have hround : roundBinary ops (binary op :: row) 0 = .failed (.nothingOnLeft op) :=
          if_pos hop
        have hsweep : joinBinary ops (binary op :: row) = .error (.nothingOnLeft op) := if_pos hop
        rw [hround, hsweep]
      · have hround : roundBinary ops (binary op :: row) 0 = .onward (binary op :: row) 1 :=
          if_neg hop
        have hsweep : joinBinary ops (binary op :: row) = joinAfter ops (binary op) row :=
          if_neg hop
        rw [hround, hsweep]
        exact hrow

/-! ## What is left -/

/-- Whether a member is an operator on one value. -/
def isUnary : Item → Bool
  | unary _ => true
  | _ => false

/-- Whether a member is one of these operators. -/
def isOneOf (ops : List BinaryOp) : Item → Bool
  | binary op => op ∈ ops
  | _ => false

/-- Whether a member is an operand. -/
def isOperand : Item → Bool
  | operand _ => true
  | _ => false

/-- A sweep has used up the operators that it is for, and no other one. -/
structure UsesUp (mine : Item → Bool) (row swept : List Item) : Prop where
  gone : ∀ item ∈ swept, ¬mine item
  kept : swept.filter (fun item ↦ !item.isOperand && !mine item) =
    row.filter fun item ↦ !item.isOperand && !mine item

theorem isUnary_iff {item : Item} : item.isUnary ↔ ∃ op, item = unary op := by
  cases item <;> simp [isUnary]

theorem isOneOf_iff {item : Item} : item.isOneOf ops ↔ ∃ op ∈ ops, item = binary op := by
  cases item <;> simp [isOneOf]

theorem not_isOperand_of_isUnary (item : Item) (h : item.isUnary) : ¬item.isOperand := by
  obtain ⟨op, rfl⟩ := isUnary_iff.1 h
  exact Bool.false_ne_true

theorem not_isOperand_of_isOneOf (item : Item) (h : item.isOneOf ops) : ¬item.isOperand := by
  obtain ⟨op, -, rfl⟩ := isOneOf_iff.1 h
  exact Bool.false_ne_true

/-- Whatever is no operand, and not used up, is told by the members one after another. -/
theorem filter_eq_flatMap (p : Item → Bool) (row : List Item) :
    row.filter p = row.flatMap fun item ↦ if p item then [item] else [] := by
  induction row with
  | nil => rfl
  | cons item row ih =>
    rw [List.filter_cons, List.flatMap_cons, ih]
    cases p item <;> rfl

theorem usesUp_of_bindUnary {row swept : List Item} (h : bindUnary row = .ok swept) :
    UsesUp isUnary row swept := by
  refine ⟨?_, ?_⟩
  · induction row generalizing swept with
    | nil => cases h; nofun
    | cons item row ih =>
      obtain ⟨bound, hbound, h⟩ := Except.bind_eq_ok_iff.1 h
      have hrest := ih hbound
      split at h
      · obtain ⟨o, -, h⟩ := Except.bind_eq_ok_iff.1 h
        cases h
        exact List.forall_mem_cons.2 ⟨Bool.false_ne_true, (List.forall_mem_cons.1 hrest).2⟩
      · cases h
      · next hitem _ =>
        cases h
        refine List.forall_mem_cons.2 ⟨fun hunary ↦ ?_, hrest⟩
        obtain ⟨op, rfl⟩ := isUnary_iff.1 hunary
        exact hitem op rfl
  · rw [filter_eq_flatMap, filter_eq_flatMap]
    exact flatMap_bindUnary (fun _ ↦ rfl) h

theorem not_isOneOf_of_joinAfter {left : Item} {row swept : List Item}
    (h : joinAfter ops left row = .ok swept) (hleft : ¬left.isOneOf ops) :
    ∀ item ∈ swept, ¬item.isOneOf ops := by
  fun_induction joinAfter ops left row generalizing swept with
  | case1 left => cases h; exact List.forall_mem_singleton.2 hleft
  | case2 op hop l r row ih =>
    obtain ⟨o, -, h⟩ := Except.bind_eq_ok_iff.1 h
    exact ih o h Bool.false_ne_true
  | case3 => cases h
  | case4 => cases h
  | case5 left op row hop ih =>
    obtain ⟨rest, hrest, h⟩ := Except.bind_eq_ok_iff.1 h
    cases h
    exact List.forall_mem_cons.2 ⟨hleft, ih hrest (by simpa [isOneOf] using hop)⟩
  | case6 left item row hitem ih =>
    obtain ⟨rest, hrest, h⟩ := Except.bind_eq_ok_iff.1 h
    cases h
    refine List.forall_mem_cons.2 ⟨hleft, ih hrest fun hmine ↦ ?_⟩
    obtain ⟨op, -, rfl⟩ := isOneOf_iff.1 hmine
    exact hitem op rfl

theorem usesUp_of_joinBinary {row swept : List Item} (h : joinBinary ops row = .ok swept) :
    UsesUp (isOneOf ops) row swept := by
  refine ⟨?_, ?_⟩
  · match row with
    | [] => cases h; nofun
    | operand e :: row => exact not_isOneOf_of_joinAfter h Bool.false_ne_true
    | unary op :: row => exact not_isOneOf_of_joinAfter h Bool.false_ne_true
    | binary op :: row =>
      obtain ⟨hop, h⟩ := joinBinary_binary_eq_ok h
      exact not_isOneOf_of_joinAfter h (by simpa [isOneOf] using hop)
  · rw [filter_eq_flatMap, filter_eq_flatMap]
    refine flatMap_joinBinary (fun hop _ ↦ ?_) h
    simp [isOperand, isOneOf, hop]

/-! ## The three sweeps -/

/-- What the three sweeps leave of a row. -/
def sweep (row : List Item) : Except FormulaError (List Item) := do
  joinBinary [.add, .sub] (← joinBinary [.mul] (← bindUnary row))

theorem sweep_eq_ok_iff {row sums : List Item} : sweep row = .ok sums ↔
    ∃ factors products, bindUnary row = .ok factors ∧ joinBinary [.mul] factors = .ok products ∧
      joinBinary [.add, .sub] products = .ok sums := by
  simp only [sweep, Except.bind_eq_ok_iff]
  grind

/-- What the row stands for is decided by what the sweeps leave of it. -/
theorem combine_eq (row : List Item) : combine row = sweep row >>= fun sums ↦
    match sums with
    | [] => .error (.notComplex [])
    | [operand e] => .ok e
    | sums => .error (.unjoined (sums.flatMap text)) := by
  rw [sweep, combine]
  simp only [bind_assoc]
  rfl

namespace UsesUp

variable {mine mine' : Item → Bool} {row swept swept' : List Item}

theorem filter_eq (h : UsesUp mine row swept) {p : Item → Bool}
    (hp : ∀ item, p item → !item.isOperand && !mine item) : swept.filter p = row.filter p := by
  have hkept (row : List Item) :
      row.filter p = (row.filter fun item ↦ !item.isOperand && !mine item).filter p := by
    rw [List.filter_filter]
    refine List.filter_congr fun item _ ↦ ?_
    by_cases hitem : p item
    · rw [hp item hitem, Bool.and_true]
    · simp [hitem]
  rw [hkept, h.kept, ← hkept]

/-- An operator that has been used up does not come back. -/
theorem trans (hmine : ∀ item, mine item → ¬item.isOperand) (h : UsesUp mine row swept)
    (h' : UsesUp mine' swept swept') :
    UsesUp (fun item ↦ mine item || mine' item) row swept' := by
  refine ⟨fun item hitem hused ↦ ?_, ?_⟩
  · by_cases hused' : mine' item
    · exact h'.gone item hitem hused'
    · have hbefore : item ∈ swept'.filter fun item ↦ mine item && !mine' item :=
        List.mem_filter.2 ⟨hitem, by simpa [hused'] using hused⟩
      rw [h'.filter_eq fun item hitem ↦ by grind] at hbefore
      obtain ⟨hmem, hused⟩ := List.mem_filter.1 hbefore
      exact h.gone item hmem (Bool.and_eq_true_iff.1 hused).1
  · rw [h'.filter_eq fun item hitem ↦ by grind, h.filter_eq fun item hitem ↦ by grind]

end UsesUp

theorem exists_eq_map_operand {row : List Item} (h : ∀ item ∈ row, item.isOperand) :
    ∃ operands : List Operand, row = operands.map operand := by
  induction row with
  | nil => exact ⟨[], rfl⟩
  | cons item row ih =>
    obtain ⟨hitem, hrow⟩ := List.forall_mem_cons.1 h
    obtain ⟨operands, rfl⟩ := ih hrow
    cases item with
    | operand e => exact ⟨e :: operands, rfl⟩
    | unary op => cases hitem
    | binary op => cases hitem

/-- The three sweeps use up all operators between them. -/
theorem exists_operands_of_sweep {row sums : List Item} (h : sweep row = .ok sums) :
    ∃ operands : List Operand, sums = operands.map operand := by
  obtain ⟨factors, products, hfactors, hproducts, hsums⟩ := sweep_eq_ok_iff.1 h
  have hmul := (usesUp_of_bindUnary hfactors).trans not_isOperand_of_isUnary
    (usesUp_of_joinBinary hproducts)
  have hall := hmul.trans (fun item hmine ↦ (Bool.or_eq_true_iff.1 hmine).elim
    (not_isOperand_of_isUnary item) (not_isOperand_of_isOneOf item)) (usesUp_of_joinBinary hsums)
  refine exists_eq_map_operand fun item hitem ↦ ?_
  have hgone := hall.gone item hitem
  cases item with
  | operand e => rfl
  | unary op => exact absurd rfl hgone
  | binary op => cases op <;> exact absurd rfl hgone

theorem combine_of_sweep {row : List Item} {e : Operand} (h : sweep row = .ok [operand e]) :
    combine row = .ok e := by
  rw [combine_eq, h]
  rfl

theorem failsOnly_sweep (row : List Item) :
    FormulaError.FailsOnly FormulaError.IsUnserved (sweep row) :=
  (failsOnly_bindUnary row).bind fun factors ↦
    (failsOnly_joinBinary _ factors).bind fun products ↦ failsOnly_joinBinary _ products

/-- Values stand side by side with nothing to join them if they are left by the sweeps. -/
theorem combine_eq_unjoined_iff {row : List Item} {spelling : Text} :
    combine row = .error (.unjoined spelling) ↔
      ∃ operands : List Operand, sweep row = .ok (operands.map operand) ∧ 2 ≤ operands.length ∧
        spelling = operands.flatMap Operand.text := by
  have htext (operands : List Operand) :
      (operands.map operand).flatMap text = operands.flatMap Operand.text := List.flatMap_map ..
  rw [combine_eq, Except.bind_eq_error_iff]
  constructor
  · rintro (h | ⟨sums, hsums, h⟩)
    · exact absurd (failsOnly_sweep row _ h) id
    · obtain ⟨operands, rfl⟩ := exists_operands_of_sweep hsums
      refine ⟨operands, hsums, ?_⟩
      match operands with
      | [] => cases h
      | [e] => cases h
      | e :: e' :: operands =>
        cases h
        exact ⟨Nat.le_add_left _ _, htext (e :: e' :: operands)⟩
  · rintro ⟨operands, hsums, hlength, rfl⟩
    refine .inr ⟨_, hsums, ?_⟩
    match operands with
    | e :: e' :: operands =>
      exact congrArg (Except.error ∘ FormulaError.unjoined) (htext (e :: e' :: operands))

/-- **Sweeps come to their end and leave no operator of theirs.** Done in place, on any row, no
sweep uses a place that the row does not have any more, and each is over after as many rounds as the
row is long; it ends with what it makes of the row. If it succeeds, it has used up its own operators
and no others. So after all three only operands are left; if it is one, it is what the row stands
for; and if there are two or more, and only then, the row is refused because nothing joins them. -/
theorem sweeps_complete :
    (∀ row, walkUnary row.length row = .done (bindUnary row)) ∧
    (∀ ops row rounds, row.length ≤ rounds →
      walkBinary ops rounds row 0 = .done (joinBinary ops row)) ∧
    (∀ row swept, bindUnary row = .ok swept → UsesUp isUnary row swept) ∧
    (∀ ops row swept, joinBinary ops row = .ok swept → UsesUp (isOneOf ops) row swept) ∧
    (∀ row sums, sweep row = .ok sums → ∃ operands : List Operand, sums = operands.map operand ∧
      (sums.length = 1 → ∃ e, takeOperand? sums 0 = some (e, []) ∧ combine row = .ok e)) ∧
    ∀ row spelling, combine row = .error (.unjoined spelling) ↔
      ∃ operands : List Operand, sweep row = .ok (operands.map operand) ∧ 2 ≤ operands.length ∧
        spelling = operands.flatMap Operand.text := by
  refine ⟨walkUnary_eq, fun ops row rounds h ↦ walkBinary_eq h, fun row swept ↦ usesUp_of_bindUnary,
    fun ops row swept ↦ usesUp_of_joinBinary, fun row sums h ↦ ?_,
    fun row spelling ↦ combine_eq_unjoined_iff⟩
  obtain ⟨operands, rfl⟩ := exists_operands_of_sweep h
  refine ⟨operands, rfl, fun hlength ↦ ?_⟩
  match operands with
  | [e] => exact ⟨e, rfl, combine_of_sweep h⟩

/-- Both factors have operators on one value in front, so nothing can be multiplied before the first
sweep is done. -/
theorem sweeps_complete_of_product : ∃ row factors sums : List Item,
    row.flatMap text = "arc*ip".toList ∧ row.length ≤ 6 ∧
      walkBinary [.mul] 6 row 0 = .done (.error (.nothingOnRight .mul)) ∧
      bindUnary row = .ok factors ∧ UsesUp isUnary row factors ∧
      joinBinary [.mul] factors = .ok sums ∧ UsesUp (isOneOf [.mul]) factors sums ∧
      sweep row = .ok sums ∧ sums.length = 1 ∧
      ∃ e, takeOperand? sums 0 = some (e, []) ∧ combine row = .ok e := by
  obtain ⟨-, hwalk, hunary, hbinary, hleft, -⟩ := sweeps_complete
  have hfactors : bindUnary [.unary .abs, .unary .re, .operand ⟨.var .current⟩, .binary .mul,
        .unary .im, .operand ⟨.var .previous⟩] =
      .ok [.operand ⟨.abs (.re (.var .current))⟩, .binary .mul, .operand ⟨.im (.var .previous)⟩] :=
    rfl
  have hproduct : joinBinary [.mul] [.operand ⟨.abs (.re (.var .current))⟩, .binary .mul,
        .operand ⟨.im (.var .previous)⟩] =
      .ok [.operand ⟨.binary .mul (.abs (.re (.var .current))) (.im (.var .previous))⟩] := rfl
  have hsums := sweep_eq_ok_iff.2 ⟨_, _, hfactors, hproduct, rfl⟩
  obtain ⟨-, -, hone⟩ := hleft _ _ hsums
  exact ⟨_, _, _, rfl, by decide, hwalk [.mul] _ 6 (by decide), hfactors, hunary _ _ hfactors,
    hproduct, hbinary _ _ _ hproduct, hsums, rfl, hone rfl⟩

end Item

end OrbitPlot
