import ArrowCalc.Decimal.Shortest
import ArrowCalc.Proofs.Decimal.Rounding

/-!
# The search for the shortest decimal

`Binary.shortest` compares natural numbers only. Read as rational numbers, its comparisons say
whether a point of a decimal grid rounds to the double, and its search runs through ever finer grids
until one has such a point.

## From natural numbers to rational ones

The search never divides. It compares multiples of a power of ten with multiples of a quarter of the
unit in the last place, after both were multiplied by what makes them natural numbers.
`gridUnit_mul` says that the two factors fit together, and with it each comparison of the search is
one of rational numbers. A quarter of the unit is enough because the end of the interval below a
power of two lies a quarter of a unit away, and no end needs more.

## Why one grid suffices at a time

On a grid only two points matter, the last one that is not above the double and the first one that
is (`IsDecoded.rounds_neighbour`). The numbers that round to a double are an interval around it, so
that if any point of the grid is in it, the neighbour on the same side is. A finer grid contains the
coarser ones, and with seventeen digits the grid is narrower than the interval. So the search ends,
and on the coarsest grid on which it can.

A decimal with fewer digits need not be on the grid that the search tries for its number of digits:
it may have the order of magnitude below that of the double. `IsDecoded.exists_rounds_of_lt`
replaces it by the power of ten between the two.

## Main results

* `IsDecoded.covers_iff`: what `covers` tests is rounding to the double.
* `IsDecoded.onGrid?_eq_some`, `IsDecoded.onGrid?_eq_none`: on one grid the two neighbours of the
  double decide.
* `IsDecoded.exists_shortest`: the search succeeds; the decimal that it finds rounds to the double,
  no decimal with fewer digits does, and none with as many is nearer.
-/

namespace ArrowCalc

namespace Binary

/-- The double as a rational number. -/
def value (x : Binary) : ℚ := x.significand * 2 ^ x.exponent

/-- The number of a double as its bit pattern gives it. -/
structure IsDecoded (x : Binary) : Prop where
  canonical : IsCanonical x.significand x.exponent
  narrow_iff : x.narrow = true ↔ IsNarrow x.significand x.exponent

/-- The rational number `p` rounds to the double. -/
def Rounds (x : Binary) (p : ℚ) : Prop := RoundsTo p x.significand x.exponent

variable {x : Binary}

theorem IsDecoded.rounds_iff (h : x.IsDecoded) {p : ℚ} :
    x.Rounds p ↔ InInterval p x.significand x.exponent :=
  roundsTo_iff h.canonical

theorem IsDecoded.rounds_value (h : x.IsDecoded) : x.Rounds x.value :=
  h.rounds_iff.2 (inInterval_self _ _)

theorem IsDecoded.rounds_between (h : x.IsDecoded) {p s t : ℚ} (hs : x.Rounds s) (ht : x.Rounds t)
    (hsp : s ≤ p) (hpt : p ≤ t) : x.Rounds p := by
  rw [h.rounds_iff] at *
  exact hs.between ht hsp hpt

/-! ### Scaled comparisons

The ends of the interval and the double itself, in quarters of the unit, and the comparison of such
a number with a point of a grid. -/

/-- Four quarters of the unit make the unit. -/
theorem unit_eq (x : Binary) : (2 : ℚ) ^ x.exponent = 4 * 2 ^ (x.exponent - 2) := by
  rw [zpow_sub₀ (by norm_num)]
  norm_num
  ring

theorem middle_mul (x : Binary) : (x.middle : ℚ) * 2 ^ (x.exponent - 2) = x.value := by
  rw [value, unit_eq, middle]
  push_cast
  ring

theorem upper_mul (x : Binary) :
    (x.upper : ℚ) * 2 ^ (x.exponent - 2) = x.value + 2 ^ x.exponent / 2 := by
  rw [← middle_mul, unit_eq, upper]
  push_cast
  ring

/-- The lower end. It is nearer to the double where the gap below is narrow, at a power of two. -/
theorem IsDecoded.lower_mul (h : x.IsDecoded) :
    (x.lower : ℚ) * 2 ^ (x.exponent - 2) =
      x.value - gapBelow x.significand x.exponent / 2 := by
  have hpos := h.canonical.pos
  rw [← middle_mul, lower, gapBelow]
  by_cases hn : IsNarrow x.significand x.exponent
  · rw [if_pos (h.narrow_iff.2 hn), if_pos hn, unit_eq, Nat.cast_sub (by rw [middle]; omega)]
    push_cast
    ring
  · rw [if_neg fun hx => hn (h.narrow_iff.1 hx), if_neg hn, unit_eq,
      Nat.cast_sub (by rw [middle]; omega)]
    push_cast
    ring

theorem pow_toNat_eq {a : ℚ} (ha : a ≠ 0) (z : ℤ) : a ^ z.toNat = a ^ (-z).toNat * a ^ z := by
  rw [pow_mul_zpow ha (z := (z.toNat : ℤ)) (by omega), zpow_natCast]

/-- Both units are the same multiple of what they stand for. -/
theorem gridUnit_mul (x : Binary) (e : ℤ) :
    (x.gridUnit e : ℚ) * 2 ^ (x.exponent - 2) = x.quarterUnit e * 10 ^ e := by
  have hten := pow_toNat_eq (a := 10) (by norm_num) e
  have htwo := pow_toNat_eq (a := 2) (by norm_num) (x.exponent - 2)
  rw [neg_sub] at htwo
  simp only [gridUnit, quarterUnit, Nat.pow_eq]
  push_cast
  rw [hten, htwo]
  ring

theorem quarterUnit_pos (x : Binary) (e : ℤ) : 0 < x.quarterUnit e :=
  Nat.mul_pos (Nat.pow_pos (by norm_num)) (Nat.pow_pos (by norm_num))

theorem gridUnit_pos (x : Binary) (e : ℤ) : 0 < x.gridUnit e :=
  Nat.mul_pos (Nat.pow_pos (by norm_num)) (Nat.pow_pos (by norm_num))

section Scaled

variable (x) (e : ℤ) (a b : ℕ)

theorem cast_mul_gridUnit :
    ((a * x.gridUnit e : ℕ) : ℚ) * 2 ^ (x.exponent - 2) = a * 10 ^ e * x.quarterUnit e := by
  rw [Nat.cast_mul, mul_assoc, gridUnit_mul]
  ring

theorem cast_mul_quarterUnit :
    ((b * x.quarterUnit e : ℕ) : ℚ) * 2 ^ (x.exponent - 2) =
      b * 2 ^ (x.exponent - 2) * x.quarterUnit e := by
  rw [Nat.cast_mul]
  ring

theorem mul_gridUnit_le_iff :
    a * x.gridUnit e ≤ b * x.quarterUnit e ↔ (a * 10 ^ e : ℚ) ≤ b * 2 ^ (x.exponent - 2) := by
  have hquarter : (0 : ℚ) < x.quarterUnit e := by exact_mod_cast x.quarterUnit_pos e
  have hpow : (0 : ℚ) < 2 ^ (x.exponent - 2) := by positivity
  rw [← Nat.cast_le (α := ℚ), ← mul_le_mul_iff_of_pos_right hpow, cast_mul_gridUnit,
    cast_mul_quarterUnit, mul_le_mul_iff_of_pos_right hquarter]

theorem mul_quarterUnit_le_iff :
    b * x.quarterUnit e ≤ a * x.gridUnit e ↔ b * 2 ^ (x.exponent - 2) ≤ (a * 10 ^ e : ℚ) := by
  have hquarter : (0 : ℚ) < x.quarterUnit e := by exact_mod_cast x.quarterUnit_pos e
  have hpow : (0 : ℚ) < 2 ^ (x.exponent - 2) := by positivity
  rw [← Nat.cast_le (α := ℚ), ← mul_le_mul_iff_of_pos_right hpow, cast_mul_gridUnit,
    cast_mul_quarterUnit, mul_le_mul_iff_of_pos_right hquarter]

theorem mul_gridUnit_lt_iff :
    a * x.gridUnit e < b * x.quarterUnit e ↔ (a * 10 ^ e : ℚ) < b * 2 ^ (x.exponent - 2) := by
  rw [← not_le, mul_quarterUnit_le_iff, not_le]

theorem mul_quarterUnit_lt_iff :
    b * x.quarterUnit e < a * x.gridUnit e ↔ b * 2 ^ (x.exponent - 2) < (a * 10 ^ e : ℚ) := by
  rw [← not_le, mul_gridUnit_le_iff, not_le]

end Scaled

/-- **What `covers` tests is rounding.** The ends of the interval belong to it for even
significands, which is the test of `covers` that the proof splits on. -/
theorem IsDecoded.covers_iff (h : x.IsDecoded) (e : ℤ) (c : ℕ) :
    x.covers e c = true ↔ x.Rounds (c * 10 ^ e) := by
  rw [h.rounds_iff, covers, InInterval]
  split <;>
    simp only [decide_eq_true_eq, mul_gridUnit_le_iff, mul_quarterUnit_le_iff, mul_gridUnit_lt_iff,
      mul_quarterUnit_lt_iff, h.lower_mul, upper_mul, value]

/-! ### The neighbours on a grid

The quotient of the double by the unit of the grid is the coefficient of the neighbour below. -/

theorem below_mul_le (x : Binary) (e : ℤ) : (x.below e * 10 ^ e : ℚ) ≤ x.value := by
  rw [← middle_mul, ← mul_gridUnit_le_iff]
  exact Nat.div_mul_le_self _ _

theorem lt_below_add_one_mul (x : Binary) (e : ℤ) :
    x.value < ((x.below e + 1 : ℕ) * 10 ^ e : ℚ) := by
  rw [← middle_mul, ← mul_quarterUnit_lt_iff]
  exact (Nat.div_lt_iff_lt_mul (x.gridUnit_pos e)).1 (Nat.lt_succ_self _)

theorem mul_ten_zpow_le {a b : ℕ} (h : a ≤ b) (e : ℤ) : (a * 10 ^ e : ℚ) ≤ b * 10 ^ e := by
  gcongr

/-- If any point of the grid rounds to the double, then so does the neighbour on its side. -/
theorem IsDecoded.rounds_neighbour (h : x.IsDecoded) {e : ℤ} {c : ℕ} (hc : x.Rounds (c * 10 ^ e)) :
    (c ≤ x.below e ∧ x.Rounds (x.below e * 10 ^ e)) ∨
      (x.below e + 1 ≤ c ∧ x.Rounds ((x.below e + 1 : ℕ) * 10 ^ e)) := by
  rcases Nat.lt_or_ge (x.below e) c with hlt | hle
  · refine .inr ⟨hlt, h.rounds_between h.rounds_value hc (x.lt_below_add_one_mul e).le ?_⟩
    exact mul_ten_zpow_le hlt e
  · exact .inl ⟨hle, h.rounds_between hc h.rounds_value (mul_ten_zpow_le hle e) (x.below_mul_le e)⟩

theorem abs_below_sub_le {e : ℤ} {c : ℕ} (hc : c ≤ x.below e) :
    |(x.below e * 10 ^ e : ℚ) - x.value| ≤ |(c * 10 ^ e : ℚ) - x.value| := by
  have hb := x.below_mul_le e
  have hle := mul_ten_zpow_le hc e
  rw [abs_of_nonpos (by linarith), abs_of_nonpos (by linarith)]
  linarith

theorem abs_above_sub_le {e : ℤ} {c : ℕ} (hc : x.below e + 1 ≤ c) :
    |((x.below e + 1 : ℕ) * 10 ^ e : ℚ) - x.value| ≤ |(c * 10 ^ e : ℚ) - x.value| := by
  have hb := x.lt_below_add_one_mul e
  have hle := mul_ten_zpow_le hc e
  rw [abs_of_nonneg (by linarith), abs_of_nonneg (by linarith)]
  linarith

/-- If nothing is found on a grid, then no point of it rounds to the double. -/
theorem IsDecoded.onGrid?_eq_none (h : x.IsDecoded) {e : ℤ} (hnone : x.onGrid? e = none) (c : ℕ) :
    ¬ x.Rounds (c * 10 ^ e) := by
  intro hc
  rw [onGrid?] at hnone
  split at hnone
  · split at hnone <;> cases hnone
  · cases hnone
  · cases hnone
  · next hbelow habove =>
    rcases h.rounds_neighbour hc with ⟨-, hr⟩ | ⟨-, hr⟩
    · rw [(h.covers_iff e _).2 hr] at hbelow
      cases hbelow
    · rw [(h.covers_iff e _).2 hr] at habove
      cases habove

/-- Which of the neighbours is nearer is decided by comparing the double with their middle. -/
theorem two_mul_middle_lt_iff (x : Binary) (e : ℤ) :
    2 * (x.middle * x.quarterUnit e) < (2 * x.below e + 1) * x.gridUnit e ↔
      2 * x.value < ((2 * x.below e + 1 : ℕ) * 10 ^ e : ℚ) := by
  rw [← Nat.mul_assoc, mul_quarterUnit_lt_iff, ← middle_mul]
  push_cast
  ring_nf

/-- The point that is found on a grid is one of the neighbours, rounds to the double, and is as near
to it as any point of the grid that does. -/
theorem IsDecoded.onGrid?_eq_some (h : x.IsDecoded) {e : ℤ} {d : Decimal}
    (hsome : x.onGrid? e = some d) :
    d.exponent = e ∧ d.coefficient ≤ x.below e + 1 ∧ x.Rounds (d.coefficient * 10 ^ e) ∧
      ∀ c : ℕ, x.Rounds (c * 10 ^ e) →
        |(d.coefficient * 10 ^ e : ℚ) - x.value| ≤ |(c * 10 ^ e : ℚ) - x.value| := by
  have hb := x.below_mul_le e
  have ha := x.lt_below_add_one_mul e
  -- whichever neighbour was taken, a point on either side is no nearer than the neighbour there
  rw [onGrid?] at hsome
  split at hsome
  · next hbelow habove =>
    rw [h.covers_iff] at hbelow habove
    split at hsome
    · next hlt =>
      rw [two_mul_middle_lt_iff] at hlt
      cases hsome
      refine ⟨rfl, Nat.le_succ _, hbelow, fun c hc => ?_⟩
      rcases h.rounds_neighbour hc with ⟨hle, -⟩ | ⟨hge, -⟩
      · exact abs_below_sub_le hle
      · refine le_trans ?_ (abs_above_sub_le hge)
        rw [abs_of_nonpos (by linarith), abs_of_nonneg (by linarith)]
        push_cast at hlt ⊢
        linarith
    · next hge =>
      rw [two_mul_middle_lt_iff, not_lt] at hge
      cases hsome
      refine ⟨rfl, le_rfl, habove, fun c hc => ?_⟩
      rcases h.rounds_neighbour hc with ⟨hle, -⟩ | ⟨hge', -⟩
      · refine le_trans ?_ (abs_below_sub_le hle)
        rw [abs_of_nonneg (by linarith), abs_of_nonpos (by linarith)]
        push_cast at hge ⊢
        linarith
      · exact abs_above_sub_le hge'
  · next hbelow habove =>
    cases hsome
    refine ⟨rfl, Nat.le_succ _, (h.covers_iff e _).1 hbelow, fun c hc => ?_⟩
    rcases h.rounds_neighbour hc with ⟨hle, -⟩ | ⟨-, hr⟩
    · exact abs_below_sub_le hle
    · rw [(h.covers_iff e _).2 hr] at habove
      cases habove
  · next hbelow habove =>
    cases hsome
    refine ⟨rfl, le_rfl, (h.covers_iff e _).1 habove, fun c hc => ?_⟩
    rcases h.rounds_neighbour hc with ⟨-, hr⟩ | ⟨hge, -⟩
    · rw [(h.covers_iff e _).2 hr] at hbelow
      cases hbelow
    · exact abs_above_sub_le hge
  · cases hsome

/-! ### The order of magnitude

The number of digits of a double in front of the finest grid. It tells the search where to start,
and both bounds are needed: with a start too low a shorter decimal would be missed, and with one too
high the bound on the number of digits would be lost. -/

theorem lt_ten_pow_length_digits (n : ℕ) : n < 10 ^ (Decimal.digits n).length :=
  (Nat.length_toDigits_le_iff (by norm_num) Nat.length_toDigits_pos).1 le_rfl

theorem ten_pow_length_digits_le {n : ℕ} (hn : 0 < n) :
    10 ^ ((Decimal.digits n).length - 1) ≤ n := by
  by_contra hlt
  have hlen : 0 < (Decimal.digits n).length := Nat.length_toDigits_pos
  rcases Nat.eq_zero_or_pos ((Decimal.digits n).length - 1) with hzero | hpos
  · rw [hzero] at hlt
    omega
  · have := (Nat.length_toDigits_le_iff (b := 10) (by norm_num) hpos).2 (not_le.1 hlt)
    rw [Decimal.digits] at *
    omega

/-- Every positive double is at least `10 ^ -324`. -/
theorem IsDecoded.ten_zpow_finest_le (h : x.IsDecoded) : (10 : ℚ) ^ (-(finest : ℤ)) ≤ x.value := by
  have hsmall : (10 : ℚ) ^ (-324 : ℤ) ≤ 2 ^ (-1074 : ℤ) := by
    have hroot : ((2 : ℚ) ^ 179) ^ 6 ≤ (10 ^ 54) ^ 6 := by
      gcongr
      norm_num
    rw [← pow_mul, ← pow_mul] at hroot
    exact inv_anti₀ (by positivity) hroot
  have hpow : (2 : ℚ) ^ (-1074 : ℤ) ≤ 2 ^ x.exponent :=
    zpow_le_zpow_right₀ (by norm_num) h.canonical.ge
  have hone : (1 : ℚ) ≤ x.significand := by exact_mod_cast h.canonical.pos
  have hle : (2 : ℚ) ^ x.exponent ≤ x.significand * 2 ^ x.exponent :=
    le_mul_of_one_le_left (by positivity) hone
  exact hsmall.trans (hpow.trans hle)

theorem IsDecoded.below_finest_pos (h : x.IsDecoded) : 0 < x.below (-(finest : ℤ)) := by
  by_contra hzero
  have hlt := x.lt_below_add_one_mul (-(finest : ℤ))
  rw [Nat.eq_zero_of_not_pos hzero] at hlt
  have := h.ten_zpow_finest_le
  push_cast at hlt
  linarith

theorem IsDecoded.ten_zpow_magnitude_le (h : x.IsDecoded) :
    (10 : ℚ) ^ (x.magnitude - 1) ≤ x.value := by
  refine le_trans ?_ (x.below_mul_le (-(finest : ℤ)))
  have hlen : 0 < (Decimal.digits (x.below (-(finest : ℤ)))).length := Nat.length_toDigits_pos
  have hexp : x.magnitude - 1 =
      (((Decimal.digits (x.below (-(finest : ℤ)))).length - 1 : ℕ) : ℤ) + -(finest : ℤ) := by
    rw [magnitude]
    omega
  rw [hexp, zpow_add₀ (by norm_num), zpow_natCast]
  gcongr
  exact_mod_cast ten_pow_length_digits_le h.below_finest_pos

theorem lt_ten_zpow_magnitude (x : Binary) : x.value < 10 ^ x.magnitude := by
  refine (x.lt_below_add_one_mul (-(finest : ℤ))).trans_le ?_
  rw [magnitude, sub_eq_add_neg, zpow_add₀ (by norm_num), zpow_natCast]
  gcongr
  exact_mod_cast lt_ten_pow_length_digits _

/-! ### The search -/

/-- A grid that is narrower than the interval has a point inside. -/
theorem IsDecoded.exists_rounds_of_lt_width (h : x.IsDecoded) {e : ℤ}
    (hwidth : (10 : ℚ) ^ e < gapBelow x.significand x.exponent / 2 + 2 ^ x.exponent / 2) :
    ∃ c : ℕ, x.Rounds (c * 10 ^ e) := by
  have hb := x.below_mul_le e
  have ha := x.lt_below_add_one_mul e
  have hgap := gapBelow_pos x.significand x.exponent
  have hpow : (0 : ℚ) < 2 ^ x.exponent := by positivity
  simp only [h.rounds_iff]
  rw [value] at ha hb
  rcases le_or_gt (x.below e * 10 ^ e : ℚ)
      (x.significand * 2 ^ x.exponent - gapBelow x.significand x.exponent / 2) with hle | hgt
  · -- The lower neighbour is left of the interval, so the upper one is inside.
    refine ⟨x.below e + 1, inInterval_of_lt (by linarith) ?_⟩
    push_cast
    linarith
  · exact ⟨x.below e, inInterval_of_lt hgt (by linarith)⟩

/-- With seventeen digits the grid is narrower than the interval. -/
theorem IsDecoded.ten_zpow_lt_width (h : x.IsDecoded) :
    (10 : ℚ) ^ (x.magnitude - 1 - 16) <
      gapBelow x.significand x.exponent / 2 + 2 ^ x.exponent / 2 := by
  have hsplit : (10 : ℚ) ^ (x.magnitude - 1) = 10 ^ (x.magnitude - 1 - 16) * 10 ^ 16 := by
    rw [mul_comm, pow_mul_zpow (z := x.magnitude - 1) (by norm_num) (by omega)]
  have hstep := h.ten_zpow_magnitude_le
  have hpow : (0 : ℚ) < 2 ^ x.exponent := by positivity
  rw [hsplit, value] at hstep
  rw [gapBelow]
  split
  · next hn =>
    have hm : (x.significand : ℚ) = 2 ^ 52 := by exact_mod_cast hn.1
    rw [hm] at hstep
    norm_num at hstep
    linarith
  · have hm : (x.significand : ℚ) < 2 ^ 53 := by exact_mod_cast h.canonical.lt
    have hlt : (x.significand : ℚ) * 2 ^ x.exponent < 2 ^ 53 * 2 ^ x.exponent := by gcongr
    norm_num at hstep hlt
    linarith

/-- A search through numbers finds nothing, or the first number at which there is something. -/
theorem findSome?_range {α : Type} (f : ℕ → Option α) (n : ℕ) :
    (∀ k < n, f k = none) ∨
      ∃ k < n, (List.range n).findSome? f = f k ∧ f k ≠ none ∧ ∀ i < k, f i = none := by
  induction n with
  | zero => exact .inl fun k hk => absurd hk (Nat.not_lt_zero k)
  | succ n ih =>
    rw [List.range_succ, List.findSome?_append]
    rcases ih with hnone | ⟨k, hk, hfind, hne, hbefore⟩
    · have hfind : (List.range n).findSome? f = none :=
        List.findSome?_eq_none_iff.2 fun k hk => hnone k (List.mem_range.1 hk)
      rw [hfind, Option.none_or, List.findSome?_singleton]
      by_cases hn : f n = none
      · refine .inl fun k hk => ?_
        rcases Nat.lt_succ_iff_lt_or_eq.1 hk with hlt | rfl
        · exact hnone k hlt
        · exact hn
      · exact .inr ⟨n, Nat.lt_succ_self n, rfl, hn, hnone⟩
    · obtain ⟨a, ha⟩ := Option.ne_none_iff_exists'.1 hne
      refine .inr ⟨k, Nat.lt_succ_of_lt hk, ?_, hne, hbefore⟩
      rw [hfind, ha, Option.some_or]

/-- The search ends on the coarsest grid that has a point which rounds to the double. -/
theorem IsDecoded.exists_onGrid?_eq_shortest (h : x.IsDecoded) :
    ∃ j < 17, x.onGrid? (x.magnitude - 1 - (j : ℕ)) = some x.shortest ∧
      ∀ i < j, x.onGrid? (x.magnitude - 1 - (i : ℕ)) = none := by
  rcases findSome?_range (fun k => x.onGrid? (x.magnitude - 1 - (k : ℕ))) 17 with
    hnone | ⟨j, hj, hfind, hne, hbefore⟩
  · obtain ⟨c, hc⟩ := h.exists_rounds_of_lt_width h.ten_zpow_lt_width
    exact absurd hc (h.onGrid?_eq_none (hnone 16 (by norm_num)) c)
  · obtain ⟨d, hd⟩ := Option.ne_none_iff_exists'.1 hne
    refine ⟨j, hj, ?_, hbefore⟩
    rw [shortest, hfind]
    simp only [hd, Option.getD_some]

/-- A decimal with `k` digits that rounds to the double has a point of the grid of `k` digits beside
it that does so too and is no further away. -/
theorem IsDecoded.exists_rounds_of_lt (h : x.IsDecoded) {s k : ℕ} {e : ℤ} (hs : s < 10 ^ k)
    (hr : x.Rounds (s * 10 ^ e)) :
    0 < k ∧ ∃ c : ℕ, x.Rounds (c * 10 ^ (x.magnitude - k)) ∧
      |(c * 10 ^ (x.magnitude - k) : ℚ) - x.value| ≤ |(s * 10 ^ e : ℚ) - x.value| := by
  have hk : 0 < k := by
    rcases Nat.eq_zero_or_pos k with rfl | hk
    · -- Zero rounds to no positive double.
      exfalso
      have hlow := (h.rounds_iff.1 hr).le.1
      rw [pow_zero, Nat.lt_one_iff] at hs
      have hm : (1 : ℚ) ≤ x.significand := by exact_mod_cast h.canonical.pos
      have hpow : (0 : ℚ) < 2 ^ x.exponent := by positivity
      have hle : (2 : ℚ) ^ x.exponent ≤ x.significand * 2 ^ x.exponent :=
        le_mul_of_one_le_left hpow.le hm
      have hgap : gapBelow x.significand x.exponent ≤ 2 ^ x.exponent := by
        rw [gapBelow]
        split <;> linarith
      rw [hs] at hlow
      push_cast at hlow
      linarith
    · exact hk
  refine ⟨hk, ?_⟩
  rcases le_or_gt (x.magnitude - k) e with hle | hlt
  · -- The decimal is itself on the grid.
    refine ⟨s * 10 ^ (e - (x.magnitude - k)).toNat, ?_⟩
    have hpoint : ((s * 10 ^ (e - (x.magnitude - k)).toNat : ℕ) * 10 ^ (x.magnitude - k) : ℚ) =
        s * 10 ^ e := by
      push_cast
      rw [mul_assoc, pow_mul_zpow (z := e) (by norm_num) (by omega)]
    rw [hpoint]
    exact ⟨hr, le_rfl⟩
  · -- It is below the power of ten that begins the decade of the double.
    refine ⟨10 ^ (k - 1), ?_⟩
    have hpoint : ((10 ^ (k - 1) : ℕ) * 10 ^ (x.magnitude - k) : ℚ) = 10 ^ (x.magnitude - 1) := by
      push_cast
      exact pow_mul_zpow (by norm_num) (by omega)
    have hlow : (s * 10 ^ e : ℚ) ≤ 10 ^ (x.magnitude - 1) := by
      have hcast : (s : ℚ) ≤ 10 ^ k := by exact_mod_cast hs.le
      calc (s * 10 ^ e : ℚ) ≤ 10 ^ k * 10 ^ e := by gcongr
        _ = 10 ^ ((k : ℤ) + e) := pow_mul_zpow (by norm_num) rfl
        _ ≤ 10 ^ (x.magnitude - 1) := zpow_le_zpow_right₀ (by norm_num) (by omega)
    have hup := h.ten_zpow_magnitude_le
    rw [hpoint]
    refine ⟨h.rounds_between hr h.rounds_value hlow hup, ?_⟩
    rw [abs_of_nonpos (by linarith), abs_of_nonpos (by linarith)]
    linarith

/-- The shortest decimal has at most `j + 1` digits in front of trailing zeros, where `j + 1` is the
least number of digits that any decimal needs which rounds to the double. -/
theorem IsDecoded.exists_shortest (h : x.IsDecoded) :
    ∃ j : ℕ, x.shortest.coefficient ≤ 10 ^ (j + 1) ∧
      x.Rounds (x.shortest.coefficient * 10 ^ x.shortest.exponent) ∧
      ∀ (s k : ℕ) (e : ℤ), s < 10 ^ k → x.Rounds (s * 10 ^ e) →
        j < k ∧ (k = j + 1 →
          |(x.shortest.coefficient * 10 ^ x.shortest.exponent : ℚ) - x.value| ≤
            |(s * 10 ^ e : ℚ) - x.value|) := by
  obtain ⟨j, hj, hfound, hbefore⟩ := h.exists_onGrid?_eq_shortest
  obtain ⟨hexp, hcoeff, hrounds, hnear⟩ := h.onGrid?_eq_some hfound
  refine ⟨j, hcoeff.trans ?_, by rwa [hexp], fun s k e hs hr => ?_⟩
  · have hlt : (x.below (x.magnitude - 1 - (j : ℕ)) * 10 ^ (x.magnitude - 1 - (j : ℕ)) : ℚ) <
        (10 ^ (j + 1) : ℕ) * 10 ^ (x.magnitude - 1 - (j : ℕ)) := by
      refine (x.below_mul_le _).trans_lt (x.lt_ten_zpow_magnitude.trans_eq ?_)
      rw [Nat.cast_pow, Nat.cast_ofNat]
      exact (pow_mul_zpow (by norm_num) (by push_cast; omega)).symm
    exact_mod_cast lt_of_mul_lt_mul_right hlt (by positivity)
  · obtain ⟨hk, c, hc, hle⟩ := h.exists_rounds_of_lt hs hr
    have hgrid : x.magnitude - k = x.magnitude - 1 - ((k - 1 : ℕ) : ℤ) := by omega
    rw [hgrid] at hc hle
    constructor
    · by_contra hlt
      exact h.onGrid?_eq_none (hbefore (k - 1) (by omega)) c hc
    · intro hkj
      rw [hkj, Nat.add_sub_cancel] at hc hle
      rw [hexp]
      exact (hnear c hc).trans hle

end Binary

end ArrowCalc
