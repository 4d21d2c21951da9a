import ArrowCalc.Proofs.Parser.Soundness

/-!
# Precedence climbing

The grammar has one layer for sums and one for products, and the obvious reader has one loop for
each of them, the second inside the first. The parser has a single loop instead, with one
accumulator for both kinds of operators and a number that says how tightly an operator has to hold
its left side. Here the two nested loops are written down, and the single loop is shown to be the
same function: the same tree or the same error, and the same tokens left over.

Where the loops could come apart is a `*` behind a `+`. The accumulator is a sum by then, and in the
single loop nothing but the order of the numbers keeps the `*` from taking it for its left operand:
the right operand of the `+` is read with a larger number, so it is read past every `*`.

## Main definitions

* `Parser.chainFrom`, `Parser.chain` — operands of one layer, joined by its operators
* `Parser.product`, `Parser.sum` — the readers of the two layers

## Main results

* `Parser.verdict_operators_of_two_le`, `verdict_operators_of_le_one` — the single loop behind an
  operand
* `Parser.operation_eq_layers` — climbing is reading layer by layer
-/

namespace ArrowCalc

namespace Parser

open Grammar

/-! ### A loop for each layer -/

/-- The operators of one layer behind `left`, with their right operands, grouped to the left. -/
def chainFrom (op? : TokenKind → Option BinaryOp)
    (operand : (ts : List Token) → Outcome Expr ts.length) (left : Expr) (ts : List Token) :
    Outcome Expr (ts.length + 1) :=
  match ts with
  | [] => .ok left [] (Nat.lt_succ_self _)
  | t :: rest =>
    match op? t.kind with
    | none => .ok left (t :: rest) (Nat.lt_succ_self _)
    | some op =>
      ((operand rest).andMaybe fun right ts _ =>
        chainFrom op? operand (.binary op left right) ts).weaken (Nat.le_add_right _ 2)
termination_by ts.length
decreasing_by simp only [List.length_cons]; omega

/-- An operand, and behind it more of them, each after an operator of the layer. -/
def chain (op? : TokenKind → Option BinaryOp)
    (operand : (ts : List Token) → Outcome Expr ts.length) (ts : List Token) :
    Outcome Expr ts.length :=
  (operand ts).andMaybe fun left ts _ => chainFrom op? operand left ts

variable (eof : Span)

/-- Operands with signs, joined by `*` and `/`. -/
def product (ts : List Token) : Outcome Expr ts.length := chain productOp? (unary eof) ts

/-- Products, joined by `+` and `-`. -/
def sum (ts : List Token) : Outcome Expr ts.length := chain sumOp? (product eof) ts

/-! ### Verdicts of the loops -/

section Chain

variable {op? : TokenKind → Option BinaryOp}
  (operand : (ts : List Token) → Outcome Expr ts.length)

theorem verdict_chain (ts : List Token) :
    (chain op? operand ts).verdict =
      (operand ts).verdict.andThen fun left ts => (chainFrom op? operand left ts).verdict :=
  Outcome.verdict_andMaybe fun _ _ _ => rfl

theorem verdict_chainFrom_of_none {ts : List Token} (h : op? (peek ts) = none) (left : Expr) :
    (chainFrom op? operand left ts).verdict = .ok (left, ts) := by
  cases ts with
  | nil => rw [chainFrom]; rfl
  | cons t ts =>
    rw [peek_cons] at h
    rw [chainFrom, h]
    rfl

theorem verdict_chainFrom_of_some {t : Token} {op : BinaryOp} (h : op? t.kind = some op)
    (left : Expr) (ts : List Token) :
    (chainFrom op? operand left (t :: ts)).verdict =
      (operand ts).verdict.andThen fun right ts =>
        (chainFrom op? operand (.binary op left right) ts).verdict := by
  rw [chainFrom, h]
  simp only [Outcome.verdict_weaken]
  exact Outcome.verdict_andMaybe fun _ _ _ => rfl

end Chain

/-! ### The single loop -/

theorem productOp?_of_stops {least : ℕ} {ts : List Token} (h : Stops least ts) (hle : least ≤ 3) :
    productOp? (peek ts) = none := by
  cases hop : productOp? (peek ts) with
  | none => rfl
  | some op =>
    have hlt := h 3 4 (productOp?_eq_some_iff.mp hop).1
    omega

theorem sumOp?_of_stops {least : ℕ} {ts : List Token} (h : Stops least ts) (hle : least ≤ 1) :
    sumOp? (peek ts) = none := by
  cases hop : sumOp? (peek ts) with
  | none => rfl
  | some op =>
    have hlt := h 1 2 (sumOp?_eq_some_iff.mp hop).1
    omega

theorem productOp?_of_sumOp? {kind : TokenKind} {op : BinaryOp} (h : sumOp? kind = some op) :
    productOp? kind = none := by
  rcases sumOp?_eq_some h with rfl | rfl <;> rfl

/-- No operator holds its left side with a power of four. -/
theorem verdict_operators_of_four_le {least : ℕ} (hleast : 4 ≤ least) (left : Expr)
    (ts : List Token) : (operators eof least left ts).verdict = .ok (left, ts) := by
  have hstops : Stops least ts := by
    rcases stops_or_operator least ts with h | ⟨-, -, -, -, -, hle⟩ | ⟨-, -, -, -, -, hle⟩
    · exact h
    · omega
    · omega
  exact verdict_operators_of_stops eof hstops left

theorem verdict_operation_of_four_le {least : ℕ} (hleast : 4 ≤ least) (ts : List Token) :
    (operation eof least ts).verdict = (unary eof ts).verdict := by
  rw [verdict_operation]
  cases h : (unary eof ts).verdict with
  | error x => rfl
  | ok x => exact verdict_operators_of_four_le eof hleast x.1 x.2

/-- With a power of two or three the single loop is the loop over the factors. -/
theorem verdict_operators_of_two_le {least : ℕ} (hleast : 2 ≤ least) (hle : least ≤ 3)
    (left : Expr) (ts : List Token) :
    (operators eof least left ts).verdict =
      (chainFrom productOp? (unary eof) left ts).verdict := by
  obtain ⟨n, hts⟩ : ∃ n, ts.length < n := ⟨_, Nat.lt_succ_self _⟩
  induction n generalizing left ts with
  | zero => exact absurd hts (Nat.not_lt_zero _)
  | succ n ih =>
    rcases stops_or_operator least ts with hstops | ⟨t, us, op, rfl, hop, hone⟩ |
      ⟨t, us, op, rfl, hop, -⟩
    · rw [verdict_operators_of_stops eof hstops,
        verdict_chainFrom_of_none _ (productOp?_of_stops hstops hle)]
    · omega
    · rw [verdict_operators_product eof hle hop, verdict_chainFrom_of_some _ hop,
        verdict_operation_of_four_le eof (Nat.le_refl 4)]
      refine Verdict.andThen_congr fun right vs hright => ?_
      have hlt := Outcome.length_lt_of_verdict hright
      rw [List.length_cons] at hts
      exact ih _ vs (by omega)

theorem verdict_operation_of_two_le {least : ℕ} (hleast : 2 ≤ least) (hle : least ≤ 3)
    (ts : List Token) : (operation eof least ts).verdict = (product eof ts).verdict := by
  rw [verdict_operation, product, verdict_chain]
  exact Verdict.andThen_congr fun left us _ => verdict_operators_of_two_le eof hleast hle left us

/-- With a power of at most one the single loop first finishes the product that it stands in, and
then goes on with the loop over the terms. -/
theorem verdict_operators_of_le_one {least : ℕ} (hle : least ≤ 1) (left : Expr)
    (ts : List Token) :
    (operators eof least left ts).verdict =
      (chainFrom productOp? (unary eof) left ts).verdict.andThen fun left ts =>
        (chainFrom sumOp? (product eof) left ts).verdict := by
  obtain ⟨n, hts⟩ : ∃ n, ts.length < n := ⟨_, Nat.lt_succ_self _⟩
  induction n generalizing left ts with
  | zero => exact absurd hts (Nat.not_lt_zero _)
  | succ n ih =>
    rcases stops_or_operator least ts with hstops | ⟨t, us, op, rfl, hop, -⟩ |
      ⟨t, us, op, rfl, hop, hthree⟩
    · have hproduct := productOp?_of_stops hstops (by omega)
      rw [verdict_operators_of_stops eof hstops, verdict_chainFrom_of_none _ hproduct,
        Verdict.andThen_ok, verdict_chainFrom_of_none _ (sumOp?_of_stops hstops hle)]
    · have hnone : productOp? (peek (t :: us)) = none := productOp?_of_sumOp? hop
      rw [verdict_operators_sum eof hle hop, verdict_chainFrom_of_none _ hnone,
        Verdict.andThen_ok, verdict_chainFrom_of_some _ hop,
        ← verdict_operation_of_two_le eof (Nat.le_refl 2) (by decide)]
      refine Verdict.andThen_congr fun right vs hright => ?_
      have hlt := Outcome.length_lt_of_verdict hright
      rw [List.length_cons] at hts
      -- the right operand was read as far as possible, so no factor can follow the new sum
      obtain ⟨hstops, -⟩ := (soundBelow eof _).operation (Nat.lt_succ_self _) hright
      rw [ih _ vs (by omega),
        verdict_chainFrom_of_none _ (productOp?_of_stops hstops (by decide)), Verdict.andThen_ok]
    · rw [verdict_operators_product eof hthree hop, verdict_chainFrom_of_some _ hop,
        verdict_operation_of_four_le eof (Nat.le_refl 4), Verdict.andThen_assoc]
      refine Verdict.andThen_congr fun right vs hright => ?_
      have hlt := Outcome.length_lt_of_verdict hright
      rw [List.length_cons] at hts
      exact ih _ vs (by omega)

theorem verdict_operation_of_le_one {least : ℕ} (hle : least ≤ 1) (ts : List Token) :
    (operation eof least ts).verdict = (sum eof ts).verdict := by
  rw [verdict_operation, sum, verdict_chain, product, verdict_chain, Verdict.andThen_assoc]
  exact Verdict.andThen_congr fun left us _ => verdict_operators_of_le_one eof hle left us

/-- **Precedence climbing is reading layer by layer.** On every list of tokens the single loop,
started with the power of any operation, of a right operand of `+` or of one of `*`, has the same
outcome as the reader of sums, of products or of operands with signs: the same tree or the same
error at the same token, in front of the same rest. -/
theorem operation_eq_layers (ts : List Token) :
    operation eof 0 ts = sum eof ts ∧ operation eof 2 ts = product eof ts ∧
      operation eof 4 ts = unary eof ts := by
  refine ⟨?_, ?_, ?_⟩
  · exact Outcome.ext_verdict (verdict_operation_of_le_one eof (Nat.zero_le 1) ts)
  · exact Outcome.ext_verdict (verdict_operation_of_two_le eof (Nat.le_refl 2) (by decide) ts)
  · exact Outcome.ext_verdict (verdict_operation_of_four_le eof (Nat.le_refl 4) ts)

end Parser

end ArrowCalc
