import ArrowCalc.Proofs.Decimal.Nearest

/-!
# Arithmetic of doubles

A decimal is converted to a double by a chain of steps, each of which works with an approximation: a
product or a quotient of significands, shifted to the exponent that the result will have, rounded
there, and packed into 64 bits. This file follows one rational number through the chain, and finds
at the end the double that is nearest to it.

## What is carried along

An approximation is a significand with two bits, which say on which side of the middle between the
significand and its successor the number lies, or whether it is one of the two points. `Represents`
is the meaning of the three together, in units of the significand. It is all that rounding needs to
know, and a shift by one bit keeps it, whatever was shifted out before. So the number of shifts is
of no importance, and neither is what the bits were computed from.

Rounding needs enough bits: it drops bits and never adds any. A product of two significands has
enough of them if one factor has, and the dividend of a quotient is shifted to the left beforehand
for this purpose. The condition `2 ^ 52 ≤ m ∨ q ≤ -1074` of `rounds_roundWithAccuracy` is what both
have to provide. Its second half is for numbers so small that bits are dropped anyway.

What comes out of the rounding is nearest for exponents without an upper bound (`Rounds`), and the
bound enters where it is packed (`Rounds.nearest`).

## Why one rounding is enough

If the coefficient is below `2 ^ 53` and the power of ten is in the table of those that are doubles,
then the conversion is a single operation on doubles. Both operands are exact there, so the result
was rounded once. Otherwise the conversion works with integers of any size, and rounds at the end.

## Main results

* `Double.rounds_roundWithAccuracy` — rounding a significand with its two bits
* `Double.rounds_mul`, `Double.rounds_div` — products and quotients
* `Double.nearest_ofScientific` — the conversion of a coefficient and a power of ten
* `Double.unpack_ofNat` — the integers up to `2 ^ 53` are converted exactly
* `Decimal.toFloat_nearest` — the conversion of a decimal
-/

namespace ArrowCalc

namespace Double

open Float.Model (UnpackedFloat Format totalExponent)
open Float.Model.UnpackedFloat

/-! ### A significand with two bits

All numbers are measured in units of the significand here, so that a shift to the right is a
division by two. -/

/-- The number that a significand and its two bits stand for. Only where both bits are clear, or the
first one alone is set, is it known exactly. -/
inductive Represents : ExtendedMantissa → ℚ → Prop
  | exact {m : ℕ} {t : ℚ} (h : t = m) : Represents ⟨m, false, false⟩ t
  | below {m : ℕ} {t : ℚ} (hlow : m < t) (hhigh : t < m + 1 / 2) : Represents ⟨m, false, true⟩ t
  | middle {m : ℕ} {t : ℚ} (h : t = m + 1 / 2) : Represents ⟨m, true, false⟩ t
  | above {m : ℕ} {t : ℚ} (hlow : m + 1 / 2 < t) (hhigh : t < m + 1) : Represents ⟨m, true, true⟩ t

/-- One bit is shifted out: it becomes the first of the two bits, and the second one remembers
whether anything was left behind it. -/
theorem Represents.shiftRightOne {em : ExtendedMantissa} {t : ℚ} (h : Represents em t) :
    Represents em.shiftRightOne (t / 2) := by
  -- the last bit is shifted out, so the parity of the significand decides where the number lies
  have heven : ∀ k r s, (⟨2 * k, r, s⟩ : ExtendedMantissa).shiftRightOne = ⟨k, false, r || s⟩ := by
    intro k r s
    show (⟨2 * k / 2, 2 * k % 2 != 0, r || s⟩ : ExtendedMantissa) = _
    rw [Nat.mul_div_cancel_left k (by norm_num), Nat.mul_mod_right]
    rfl
  have hodd : ∀ k r s,
      (⟨2 * k + 1, r, s⟩ : ExtendedMantissa).shiftRightOne = ⟨k, true, r || s⟩ := by
    intro k r s
    show (⟨(2 * k + 1) / 2, (2 * k + 1) % 2 != 0, r || s⟩ : ExtendedMantissa) = _
    rw [show (2 * k + 1) / 2 = k by omega, show (2 * k + 1) % 2 = 1 by omega]
    rfl
  cases h with
  | @exact m t h =>
    obtain ⟨k, rfl | rfl⟩ := Nat.even_or_odd' m <;> push_cast at h
    · rw [heven]
      exact .exact (by linarith)
    · rw [hodd]
      exact .middle (by linarith)
  | @below m t hlow hhigh =>
    obtain ⟨k, rfl | rfl⟩ := Nat.even_or_odd' m <;> push_cast at hlow hhigh
    · rw [heven]
      exact .below (by linarith) (by linarith)
    · rw [hodd]
      exact .above (by linarith) (by linarith)
  | @middle m t h =>
    obtain ⟨k, rfl | rfl⟩ := Nat.even_or_odd' m <;> push_cast at h
    · rw [heven]
      exact .below (by linarith) (by linarith)
    · rw [hodd]
      exact .above (by linarith) (by linarith)
  | @above m t hlow hhigh =>
    obtain ⟨k, rfl | rfl⟩ := Nat.even_or_odd' m <;> push_cast at hlow hhigh
    · rw [heven]
      exact .below (by linarith) (by linarith)
    · rw [hodd]
      exact .above (by linarith) (by linarith)

/-- A shift by any number of bits. -/
theorem Represents.shiftRight {em : ExtendedMantissa} {t : ℚ} (h : Represents em t) (k : ℕ) :
    Represents (em >>> k) (t / 2 ^ k) := by
  induction k with
  | zero =>
    rw [pow_zero, div_one]
    exact h
  | succ k ih =>
    rw [pow_succ, ← div_div]
    exact ih.shiftRightOne

theorem mantissa_shiftRight (em : ExtendedMantissa) (k : ℕ) :
    (em >>> k).mantissa = em.mantissa / 2 ^ k := by
  induction k with
  | zero =>
    rw [pow_zero, Nat.div_one]
    rfl
  | succ k ih =>
    rw [pow_succ, ← Nat.div_div_eq_div_mul, ← ih]
    rfl

/-- The number `t` with the integral part `n` is rounded to `r`: to the nearer side, and from the
middle to the even one. -/
inductive IsRounded (n : ℕ) (t : ℚ) : ℕ → Prop
  | down (hlow : n ≤ t) (hhigh : t ≤ n + 1 / 2) (htie : t = n + 1 / 2 → n % 2 = 0) :
      IsRounded n t n
  | up (hlow : n + 1 / 2 ≤ t) (hhigh : t < n + 1) (htie : t = n + 1 / 2 → n % 2 = 1) :
      IsRounded n t (n + 1)

theorem Represents.isRounded {em : ExtendedMantissa} {t : ℚ} (h : Represents em t) :
    IsRounded em.mantissa t em.roundedMantissa := by
  cases h with
  | exact h => exact .down h.ge (by linarith) fun heq => by linarith
  | below hlow hhigh => exact .down hlow.le hhigh.le fun heq => absurd heq hhigh.ne
  | @middle m t h =>
    have hrounded : (⟨m, true, false⟩ : ExtendedMantissa).roundedMantissa = m + m % 2 := rfl
    rcases Nat.mod_two_eq_zero_or_one m with heven | hodd
    · rw [hrounded, heven]
      exact .down (by linarith) h.le fun _ => heven
    · rw [hrounded, hodd]
      exact .up h.ge (by linarith) fun _ => hodd
  | above hlow hhigh => exact .up hlow.le hhigh fun heq => absurd heq hlow.ne'

/-- A quotient, with what its rest says about the two bits. -/
theorem represents_div (a : ℕ) {b : ℕ} (hb : 0 < b) :
    Represents (.ofMantissaAndAccuracy (a / b) (accuracyOfFraction (a % b) b)) (a / b : ℚ) := by
  have hbpos : (0 : ℚ) < b := by exact_mod_cast hb
  have hvalue : (a / b : ℚ) = (a / b : ℕ) + ((a % b : ℕ) : ℚ) / b := by
    have hdiv : (b * (a / b : ℕ) + (a % b : ℕ) : ℚ) = a := by exact_mod_cast Nat.div_add_mod a b
    rw [← hdiv, add_div, mul_div_cancel_left₀ _ hbpos.ne']
  have hrest : ((a % b : ℕ) : ℚ) < b := by exact_mod_cast Nat.mod_lt a hb
  rw [hvalue]
  generalize a / b = d
  generalize a % b = r at *
  delta accuracyOfFraction
  by_cases hzero : r = 0
  · rw [if_pos hzero, hzero, Nat.cast_zero, zero_div, add_zero]
    exact .exact rfl
  rw [if_neg hzero]
  have hpos : (0 : ℚ) < r := by exact_mod_cast Nat.pos_of_ne_zero hzero
  have hfraction : 0 < (r / b : ℚ) := by positivity
  have hless : (r / b : ℚ) < 1 := (div_lt_one hbpos).2 hrest
  -- the middle is where twice the rest is the divisor
  rcases Nat.lt_trichotomy (2 * r) b with hlt | heq | hgt
  · have hhalf : (r / b : ℚ) < 1 / 2 := by
      have hcast : (2 * r : ℚ) < b := by exact_mod_cast hlt
      rw [div_lt_iff₀ hbpos]
      linarith
    rw [compare_lt_iff_lt.2 hlt]
    exact .below (by linarith) (by linarith)
  · have hhalf : (r / b : ℚ) = 1 / 2 := by
      have hcast : (2 * r : ℚ) = b := by exact_mod_cast heq
      rw [div_eq_iff hbpos.ne']
      linarith
    rw [compare_eq_iff_eq.2 heq, hhalf]
    exact .middle rfl
  · have hhalf : 1 / 2 < (r / b : ℚ) := by
      have hcast : (b : ℚ) < 2 * r := by exact_mod_cast hgt
      rw [lt_div_iff₀ hbpos]
      linarith
    rw [compare_gt_iff_gt.2 hgt]
    exact .above (by linarith) (by linarith)

/-! ### Rounding -/

/-- The number of the form `m * 2 ^ q` nearest to `p`, where the exponent has no upper bound. -/
inductive Rounds (p : ℚ) : UnpackedFloat → Prop
  | zero (h : RoundsTo p 0 (-1074)) : Rounds p (.zero .positive)
  | finite {m : ℕ} {q : ℤ} (c : IsCanonical m q) (h : RoundsTo p m q) :
      Rounds p (.finite .positive m q c.pos)

/-- The ends of an interval belong to it if the significand is even. -/
theorem inInterval_of_le {p : ℚ} {m : ℕ} {q : ℤ} (hlow : m * 2 ^ q - gapBelow m q / 2 ≤ p)
    (hhigh : p ≤ m * 2 ^ q + 2 ^ q / 2)
    (hends : p = m * 2 ^ q - gapBelow m q / 2 ∨ p = m * 2 ^ q + 2 ^ q / 2 → m % 2 = 0) :
    InInterval p m q := by
  by_cases heven : m % 2 = 0
  · rw [InInterval, if_pos heven]
    exact ⟨hlow, hhigh⟩
  · refine inInterval_of_lt (lt_of_le_of_ne hlow fun heq => ?_) (lt_of_le_of_ne hhigh fun heq => ?_)
    · exact heven (hends (.inl heq.symm))
    · exact heven (hends (.inr heq))

section Rounding

variable {n r : ℕ} {q : ℤ} {u : ℚ}

/-- A number that is rounded down has the significand that is below it. -/
theorem roundsTo_down (c : IsCanonical n q) (hlow : n ≤ u) (hhigh : u ≤ n + 1 / 2)
    (htie : u = n + 1 / 2 → n % 2 = 0) : RoundsTo (u * 2 ^ q) n q := by
  have hpow : (0 : ℚ) < 2 ^ q := by positivity
  have hlow' : (n : ℚ) * 2 ^ q ≤ u * 2 ^ q := by gcongr
  have hhigh' : u * 2 ^ q ≤ (n + 1 / 2) * 2 ^ q := by gcongr
  refine (roundsTo_iff c).2 (inInterval_of_le ?_ ?_ ?_)
  · linarith [gapBelow_pos n q]
  · linarith
  · rintro (heq | heq)
    · linarith [gapBelow_pos n q]
    · refine htie (mul_right_cancel₀ hpow.ne' ?_)
      linarith

/-- A number that is rounded up has the significand that is above it. The gap below that one is a
full gap if it is not the first significand of its exponent. -/
theorem roundsTo_up (c : IsCanonical (n + 1) q) (hgap : gapBelow (n + 1) q = 2 ^ q)
    (hlow : n + 1 / 2 ≤ u) (hhigh : u < n + 1) (htie : u = n + 1 / 2 → n % 2 = 1) :
    RoundsTo (u * 2 ^ q) (n + 1 : ℕ) q := by
  have hpow : (0 : ℚ) < 2 ^ q := by positivity
  have hlow' : (n + 1 / 2 : ℚ) * 2 ^ q ≤ u * 2 ^ q := by gcongr
  have hhigh' : u * 2 ^ q < (n + 1) * 2 ^ q := by gcongr
  refine (roundsTo_iff c).2 (inInterval_of_le ?_ ?_ ?_) <;> push_cast
  · linarith
  · linarith
  · rintro (heq | heq)
    · have hodd : n % 2 = 1 := by
        refine htie (mul_right_cancel₀ hpow.ne' ?_)
        linarith
      omega
    · linarith

/-- If all bits of the significand were set and the number is rounded up, then one bit is left, and
the exponent is the next one. -/
theorem roundsTo_carry (hn : n + 1 = 2 ^ 53) (hge : -1074 ≤ q) (hlow : n + 1 / 2 ≤ u)
    (hhigh : u < n + 1) :
    IsCanonical (2 ^ 52) (q + 1) ∧ RoundsTo (u * 2 ^ q) (2 ^ 52) (q + 1) := by
  have hlow' : (n + 1 / 2 : ℚ) * 2 ^ q ≤ u * 2 ^ q := by gcongr
  have hhigh' : u * 2 ^ q < (n + 1) * 2 ^ q := by gcongr
  have hcast : (n + 1 : ℚ) = 2 ^ 53 := by exact_mod_cast hn
  have c : IsCanonical (2 ^ 52) (q + 1) := ⟨by norm_num, by norm_num, by omega, fun _ => le_rfl⟩
  have hvalue : ((2 ^ 52 : ℕ) * 2 ^ (q + 1) : ℚ) = (n + 1) * 2 ^ q := by
    rw [hcast, zpow_add_one₀ (by norm_num)]
    push_cast
    ring
  -- the gap below the first significand of an exponent is that of the exponent before
  have hgap : gapBelow (2 ^ 52) (q + 1) = 2 ^ q := by
    rw [gapBelow, if_pos ⟨rfl, by omega⟩, zpow_add_one₀ (by norm_num)]
    ring
  refine ⟨c, (roundsTo_iff c).2 (inInterval_of_le ?_ ?_ fun _ => rfl)⟩
  · rw [hvalue, hgap]
    linarith
  · rw [hvalue, zpow_add_one₀ (by norm_num)]
    linarith

/-- The nearest number, from a significand with 53 bits, or with fewer at the smallest exponent. If
rounding carries into a new bit, this bit is all that is left, and the exponent grows by one. -/
theorem IsRounded.rounds (h : IsRounded n u r) (hlt : n < 2 ^ 53) (hge : -1074 ≤ q)
    (hnormal : -1074 < q → 2 ^ 52 ≤ n) :
    (r = 0 ∧ q = -1074 ∧ RoundsTo (u * 2 ^ q) 0 (-1074)) ∨
      (IsCanonical r q ∧ RoundsTo (u * 2 ^ q) r q) ∨
      (r = 2 ^ 53 ∧ IsCanonical (2 ^ 52) (q + 1) ∧ RoundsTo (u * 2 ^ q) (2 ^ 52) (q + 1)) := by
  cases h with
  | down hlow hhigh htie =>
    rcases Nat.eq_zero_or_pos n with rfl | hpos
    · -- rounding down can leave nothing, at the smallest exponent only
      obtain rfl : q = -1074 := by
        by_contra hne
        have := hnormal (by omega)
        omega
      have hhigh' : u * 2 ^ (-1074 : ℤ) ≤ ((0 : ℕ) + 1 / 2) * 2 ^ (-1074 : ℤ) := by gcongr
      refine .inl ⟨rfl, rfl, roundsTo_zero ?_⟩
      rw [Nat.cast_zero] at hhigh'
      linarith
    · have c : IsCanonical n q := ⟨hpos, hlt, hge, hnormal⟩
      exact .inr (.inl ⟨c, roundsTo_down c hlow hhigh htie⟩)
  | up hlow hhigh htie =>
    rcases Nat.lt_or_ge (n + 1) (2 ^ 53) with hlt' | hge'
    · have c : IsCanonical (n + 1) q :=
        ⟨n.succ_pos, hlt', hge, fun hq => (hnormal hq).trans n.le_succ⟩
      have hgap : gapBelow (n + 1) q = 2 ^ q := by
        rw [gapBelow, if_neg]
        rintro ⟨heq, hq⟩
        have := hnormal hq
        omega
      exact .inr (.inl ⟨c, roundsTo_up c hgap hlow hhigh htie⟩)
    · have hn : n + 1 = 2 ^ 53 := le_antisymm hlt hge'
      exact .inr (.inr ⟨hn, roundsTo_carry hn hge hlow hhigh⟩)

end Rounding

/-! ### The exponent of a result -/

section Exact

variable {m : ℕ} {q : ℤ}

theorem log2_mul_two_pow (hm : 0 < m) (k : ℕ) : (m * 2 ^ k).log2 = m.log2 + k := by
  have hpow : 0 < 2 ^ k := Nat.two_pow_pos k
  have hlow := Nat.mul_le_mul_right (2 ^ k) (Nat.log2_self_le hm.ne')
  have hhigh := Nat.mul_lt_mul_of_pos_right (Nat.lt_log2_self (n := m)) hpow
  rw [← Nat.pow_add] at hlow hhigh
  rw [Nat.log2_eq_iff (Nat.mul_pos hm hpow).ne']
  exact ⟨hlow, by rwa [Nat.add_right_comm]⟩

/-- A canonical form has the exponent that rounding aims at. -/
theorem targetExponent_eq (h : IsCanonical m q) :
    Format.binary64.targetExponent (m.log2 + 1 + q) = q := by
  have hge := h.ge
  have hlog : m.log2 < 53 := (Nat.log2_lt h.pos.ne').2 h.lt
  show max (m.log2 + 1 + q - (53 : ℕ)) (-1074) = q
  rcases eq_or_lt_of_le hge with hlow | hnormal
  · omega
  · have hlead : 52 ≤ m.log2 := (Nat.le_log2 h.pos.ne').2 (h.normal hnormal)
    omega

/-- Zeros behind a significand are dropped without a trace. -/
theorem shiftRight_zeros (m k : ℕ) :
    (⟨m * 2 ^ k, false, false⟩ : ExtendedMantissa) >>> k = ⟨m, false, false⟩ := by
  induction k generalizing m with
  | zero =>
    rw [Nat.pow_zero, Nat.mul_one]
    rfl
  | succ k ih =>
    have hdouble : m * 2 ^ (k + 1) = m * 2 * 2 ^ k := by rw [Nat.pow_succ']; ring
    show ExtendedMantissa.shiftRightOne
      ((⟨m * 2 ^ (k + 1), false, false⟩ : ExtendedMantissa) >>> k) = _
    rw [hdouble, ih]
    show (⟨m * 2 / 2, m * 2 % 2 != 0, false⟩ : ExtendedMantissa) = _
    rw [Nat.mul_div_cancel _ (by norm_num), Nat.mul_mod_left]
    rfl

theorem shiftToTargetExponent_shifted (h : IsCanonical m q) (k : ℕ) :
    shiftToTargetExponent Format.binary64 (m * 2 ^ k) (q - k) .exact = (⟨m, false, false⟩, q) := by
  have htotal : totalExponent (m * 2 ^ k) (q - k) = m.log2 + 1 + q := by
    show ((m * 2 ^ k).log2 + 1 + (q - k) : ℤ) = _
    rw [log2_mul_two_pow h.pos]
    push_cast
    ring
  have hshift : (q - (q - k)).toNat = k := by omega
  delta shiftToTargetExponent shiftToExponent
  dsimp only
  rw [htotal, targetExponent_eq h, hshift, sub_add_cancel]
  exact congrArg (·, q) (shiftRight_zeros m k)

end Exact

theorem mantissa_ofMantissaAndAccuracy (m : ℕ) (accuracy : Accuracy) :
    (ExtendedMantissa.ofMantissaAndAccuracy m accuracy).mantissa = m := by
  cases accuracy with
  | exact => rfl
  | inexact side => cases side <;> rfl

/-- What is left of a significand after it was shifted to the exponent that rounding aims at: 53
bits, or fewer at the smallest exponent. It has to have enough bits to begin with, since bits are
only dropped. -/
theorem exists_shiftToTargetExponent {m : ℕ} {q : ℤ} (hm : 2 ^ 52 ≤ m ∨ q ≤ -1074)
    (accuracy : Accuracy) :
    ∃ k : ℕ, shiftToTargetExponent Format.binary64 m q accuracy =
        (ExtendedMantissa.ofMantissaAndAccuracy m accuracy >>> k, q + k) ∧
      m / 2 ^ k < 2 ^ 53 ∧ -1074 ≤ q + k ∧ (-1074 < q + k → 2 ^ 52 ≤ m / 2 ^ k) := by
  have htarget : Format.binary64.targetExponent (totalExponent m q) =
      max ((m.log2 : ℤ) + 1 + q - (53 : ℕ)) (-1074) := rfl
  have hlog : 2 ^ 52 ≤ m → 52 ≤ m.log2 := fun h => (Nat.le_log2 (by omega)).2 h
  refine ⟨(max ((m.log2 : ℤ) + 1 + q - (53 : ℕ)) (-1074) - q).toNat, ?_, ?_⟩
  · delta shiftToTargetExponent shiftToExponent
    rw [htarget]
  generalize hk : (max ((m.log2 : ℤ) + 1 + q - (53 : ℕ)) (-1074) - q).toNat = k
  refine ⟨?_, by omega, fun hq => ?_⟩
  · rw [Nat.div_lt_iff_lt_mul (Nat.two_pow_pos k), ← pow_add]
    exact Nat.lt_log2_self.trans_le (Nat.pow_le_pow_right (by norm_num) (by omega))
  · have hpos : m ≠ 0 := by
      rintro rfl
      rw [Nat.log2_zero] at hk
      omega
    rw [Nat.le_div_iff_mul_le (Nat.two_pow_pos k), ← pow_add]
    refine (Nat.pow_le_pow_right (by norm_num) ?_).trans (Nat.log2_self_le hpos)
    omega

/-- **Rounding.** A significand and its two bits are rounded to the nearest number. -/
theorem rounds_roundWithAccuracy {m : ℕ} {q : ℤ} {accuracy : Accuracy} {t : ℚ}
    (h : Represents (.ofMantissaAndAccuracy m accuracy) t) (hm : 2 ^ 52 ≤ m ∨ q ≤ -1074) :
    Rounds (t * 2 ^ q) (roundWithAccuracy Format.binary64 .positive m q accuracy) := by
  obtain ⟨k, hshift, hlt, hge, hnormal⟩ := exists_shiftToTargetExponent hm accuracy
  have hvalue : t * 2 ^ q = t / 2 ^ k * 2 ^ (q + k) := by
    rw [add_comm, zpow_add₀ (by norm_num), zpow_natCast, div_mul_eq_mul_div, mul_left_comm,
      mul_div_cancel_left₀ _ (by positivity)]
  have hrounded := (h.shiftRight k).isRounded
  rw [mantissa_shiftRight, mantissa_ofMantissaAndAccuracy] at hrounded
  -- a significand that was rounded is shifted once more, which drops at most a zero
  have hfinish : ∀ {m r : ℕ} {q e : ℤ} (c : IsCanonical m q),
      shiftToTargetExponent Format.binary64 r e .exact = (⟨m, false, false⟩, q) →
        (match shiftToTargetExponent Format.binary64 r e .exact with
        | (em, e) => if h : em.mantissa = 0 then UnpackedFloat.zero .positive
          else .finite .positive em.mantissa e (Nat.pos_of_ne_zero h)) =
          .finite .positive m q c.pos := by
    intro m r q e c heq
    rw [heq]
    exact dif_neg c.pos.ne'
  delta roundWithAccuracy
  rw [hshift, hvalue]
  dsimp only
  generalize ExtendedMantissa.roundedMantissa _ = r at *
  generalize q + (k : ℤ) = e at *
  rcases hrounded.rounds hlt hge hnormal with ⟨rfl, rfl, hround⟩ | ⟨c, hround⟩ | ⟨rfl, c, hround⟩
  · exact .zero hround
  · have hagain := shiftToTargetExponent_shifted c 0
    rw [pow_zero, mul_one, Nat.cast_zero, sub_zero] at hagain
    exact Eq.subst (motive := Rounds _) (hfinish c hagain).symm (.finite c hround)
  · have hagain := shiftToTargetExponent_shifted c 1
    rw [pow_one, Nat.cast_one, add_sub_cancel_right] at hagain
    exact Eq.subst (motive := Rounds _) (hfinish c hagain).symm (.finite c hround)

/-! ### Packing -/

/-- What rounds to a number above all doubles is not below the middle between the largest double and
`2 ^ 1024`. -/
theorem overflow_le_of_roundsTo {p : ℚ} {m : ℕ} {q : ℤ} (c : IsCanonical m q) (hq : 971 < q)
    (h : RoundsTo p m q) : 2 ^ 1024 - 2 ^ 970 ≤ p := by
  obtain ⟨hlow, -⟩ := ((roundsTo_iff c).1 h).le
  have hpow : (2 : ℚ) ^ (971 : ℤ) * 2 ≤ 2 ^ q := by
    rw [← zpow_add_one₀ (by norm_num)]
    exact zpow_le_zpow_right₀ (by norm_num) (by omega)
  have hpos : (0 : ℚ) < 2 ^ (971 : ℤ) := by positivity
  rw [← mul_two_zpow_eq_overflow]
  generalize (2 : ℚ) ^ (971 : ℤ) = unit at *
  by_cases hnarrow : IsNarrow m q
  · obtain ⟨rfl, -⟩ := id hnarrow
    rw [gapBelow, if_pos hnarrow] at hlow
    push_cast at hlow
    linarith
  · have hm : 2 ^ 52 < m :=
      lt_of_le_of_ne (c.normal (by omega)) fun heq => hnarrow ⟨heq.symm, by omega⟩
    have hcast : (2 ^ 52 + 1 : ℚ) ≤ m := by exact_mod_cast hm
    have hscale : (2 ^ 52 + 1 : ℚ) * 2 ^ q ≤ m * 2 ^ q := by gcongr
    rw [gapBelow, if_neg hnarrow] at hlow
    linarith

/-- A rounded number is packed as the nearest double. -/
theorem Rounds.nearest {p : ℚ} {u : UnpackedFloat} (h : Rounds p u) :
    Nearest p (unpack Format.binary64 (pack Format.binary64 u)) := by
  cases h with
  | zero h => exact .zero h
  | @finite m q c h =>
    rcases lt_or_ge 971 q with hlarge | hq
    · have hpack : pack Format.binary64 (.finite .positive m q c.pos) =
          packedInfinity Format.binary64 .positive := by
        delta pack
        refine if_pos ?_
        show 2048 ≤ (q + (1023 : ℕ) + (52 : ℕ)).toNat + 1
        omega
      rw [hpack]
      exact .infinity (overflow_le_of_roundsTo c hlarge h)
    · rw [unpack_pack c hq]
      exact .finite c.pos h

/-! ### Products and quotients -/

section Operations

variable {m₁ m₂ : ℕ} {e₁ e₂ : ℤ} (h₁ : 0 < m₁) (h₂ : 0 < m₂)

/-- A product is rounded once. It has enough bits if one of the factors has them. -/
theorem rounds_mul (hm : 2 ^ 52 ≤ m₁ * m₂) :
    Rounds (m₁ * 2 ^ e₁ * (m₂ * 2 ^ e₂))
      (mul Format.binary64 (.finite .positive m₁ e₁ h₁) (.finite .positive m₂ e₂ h₂)) := by
  have hexact : Represents (.ofMantissaAndAccuracy (m₁ * m₂) .exact) (m₁ * m₂ : ℕ) := .exact rfl
  have hvalue : (m₁ * 2 ^ e₁ * (m₂ * 2 ^ e₂) : ℚ) = (m₁ * m₂ : ℕ) * 2 ^ (e₁ + e₂) := by
    rw [zpow_add₀ (by norm_num)]
    push_cast
    ring
  rw [hvalue]
  exact rounds_roundWithAccuracy hexact (.inl hm)

include h₁ h₂ in
/-- The dividend of a quotient is shifted to the left until the quotient has enough bits, or its
exponent is so small that bits will be dropped anyway. -/
theorem le_div_of_shift {k : ℕ} {e : ℤ} (hk : e₁ - e₂ - e = k)
    (he : e ≤ max ((m₁.log2 : ℤ) + 1 + e₁ - (m₂.log2 + 1 + e₂) - 53) (-1074)) :
    2 ^ 52 ≤ m₁ * 2 ^ k / m₂ ∨ e ≤ -1074 := by
  rcases le_or_gt e (-1074) with hsmall | hlarge
  · exact .inr hsmall
  left
  rw [Nat.le_div_iff_mul_le h₂]
  calc 2 ^ 52 * m₂ ≤ 2 ^ 52 * 2 ^ (m₂.log2 + 1) := Nat.mul_le_mul_left _ Nat.lt_log2_self.le
    _ = 2 ^ (52 + (m₂.log2 + 1)) := (pow_add 2 _ _).symm
    _ ≤ 2 ^ (m₁.log2 + k) := Nat.pow_le_pow_right (by norm_num) (by omega)
    _ = 2 ^ m₁.log2 * 2 ^ k := pow_add 2 _ _
    _ ≤ m₁ * 2 ^ k := Nat.mul_le_mul_right _ (Nat.log2_self_le h₁.ne')

/-- A quotient is rounded once. -/
theorem rounds_div :
    Rounds (m₁ * 2 ^ e₁ / (m₂ * 2 ^ e₂))
      (div Format.binary64 (.finite .positive m₁ e₁ h₁) (.finite .positive m₂ e₂ h₂)) := by
  obtain ⟨e, he⟩ : ∃ e, e = min (e₁ - e₂)
      (max ((m₁.log2 : ℤ) + 1 + e₁ - (m₂.log2 + 1 + e₂) - (53 : ℕ)) (-1074)) := ⟨_, rfl⟩
  obtain ⟨k, hk⟩ : ∃ k : ℕ, e₁ - e₂ - e = k := Int.eq_ofNat_of_zero_le (by omega)
  have hdiv : div Format.binary64 (.finite .positive m₁ e₁ h₁) (.finite .positive m₂ e₂ h₂) =
      roundWithAccuracy Format.binary64 .positive (m₁ * 2 ^ k / m₂) e
        (accuracyOfFraction (m₁ * 2 ^ k % m₂) m₂) := by
    show roundWithAccuracy Format.binary64 .positive
      (m₁ <<< (e₁ - e₂ - min (e₁ - e₂) _).toNat / m₂) (min (e₁ - e₂) _)
      (accuracyOfFraction (m₁ <<< (e₁ - e₂ - min (e₁ - e₂) _).toNat % m₂) m₂) = _
    have htarget : Format.binary64.targetExponent (totalExponent m₁ e₁ - totalExponent m₂ e₂) =
      max ((m₁.log2 : ℤ) + 1 + e₁ - (m₂.log2 + 1 + e₂) - (53 : ℕ)) (-1074) := rfl
    rw [htarget, ← he, hk, Int.toNat_natCast, Nat.shiftLeft_eq]
  have hvalue : (m₁ * 2 ^ e₁ / (m₂ * 2 ^ e₂) : ℚ) = (m₁ * 2 ^ k : ℕ) / m₂ * 2 ^ e := by
    have hpow : (2 : ℚ) ^ e₁ = 2 ^ k * 2 ^ e * 2 ^ e₂ := by
      rw [← zpow_natCast, ← zpow_add₀ (by norm_num), ← zpow_add₀ (by norm_num)]
      congr 1
      omega
    rw [hpow, ← mul_assoc, mul_div_mul_right _ _ (by positivity)]
    push_cast
    ring
  rw [hdiv, hvalue]
  exact rounds_roundWithAccuracy (represents_div _ h₂) (le_div_of_shift h₁ h₂ hk (by omega))

end Operations

/-! ### Integers -/

section Integers

variable {n : ℕ} (hpos : 0 < n)

include hpos

/-- An integer is shifted to the left until it has enough bits. -/
theorem rounds_round : Rounds n (UnpackedFloat.round Format.binary64 .positive n 0) := by
  have htarget : Format.binary64.targetExponent (totalExponent n 0) =
      max ((n.log2 : ℤ) + 1 + 0 - (53 : ℕ)) (-1074) := rfl
  delta UnpackedFloat.round decreaseExponent
  dsimp only
  rw [htarget, Nat.shiftLeft_eq]
  generalize hk : (0 - max ((n.log2 : ℤ) + 1 + 0 - (53 : ℕ)) (-1074)).toNat = k
  have hexact : Represents (.ofMantissaAndAccuracy (n * 2 ^ k) .exact) (n * 2 ^ k : ℕ) := .exact rfl
  have hbits : 2 ^ 52 ≤ n * 2 ^ k := by
    calc 2 ^ 52 ≤ 2 ^ (n.log2 + k) := Nat.pow_le_pow_right (by norm_num) (by omega)
      _ = 2 ^ n.log2 * 2 ^ k := pow_add 2 _ _
      _ ≤ n * 2 ^ k := Nat.mul_le_mul_right _ (Nat.log2_self_le hpos.ne')
  have hvalue : (n : ℚ) = (n * 2 ^ k : ℕ) * 2 ^ (0 - k : ℤ) := by
    push_cast
    rw [mul_assoc, pow_mul_zpow (z := 0) (by norm_num) (by omega), zpow_zero, mul_one]
  rw [hvalue]
  exact rounds_roundWithAccuracy hexact (.inl hbits)

/-- The integers below `2 ^ 53` are converted exactly. -/
theorem unpack_toFloat (hlt : n < 2 ^ 53) :
    ∃ (m : ℕ) (q : ℤ) (hm : 0 < m),
      n.toUInt64.toFloat.toModel.unpack = .finite .positive m q hm ∧ (m * 2 ^ q : ℚ) = n := by
  have hword : n.toUInt64.toNat = n := Nat.mod_eq_of_lt (hlt.trans (by norm_num))
  have hcompare : compare (n : ℤ) 0 = .gt := compare_gt_iff_gt.2 (by exact_mod_cast hpos)
  have hnormalize : UnpackedFloat.normalize Format.binary64 n.toUInt64.toNat 0 .positive =
      UnpackedFloat.round Format.binary64 .positive n 0 := by
    rw [hword]
    delta UnpackedFloat.normalize
    rw [hcompare]
    rfl
  have hnearest : Nearest n n.toUInt64.toFloat.toModel.unpack := by
    show Nearest n (unpack Format.binary64 (pack Format.binary64
      (UnpackedFloat.normalize Format.binary64 n.toUInt64.toNat 0 .positive)))
    rw [hnormalize]
    exact (rounds_round hpos).nearest
  have hcast : (n : ℚ) < 2 ^ 53 := by exact_mod_cast hlt
  refine hnearest.exists_exact ⟨n, 0, hlt, by norm_num, ?_⟩ (by exact_mod_cast hpos)
    (hcast.trans two_pow_lt_overflow)
  rw [zpow_zero, mul_one]

end Integers

/-- A double that is not below one has all of its bits. -/
theorem two_pow_le_of_one_le {m : ℕ} {q : ℤ} (c : IsCanonical m q)
    (h : (1 : ℚ) ≤ m * 2 ^ q) : 2 ^ 52 ≤ m := by
  refine c.normal (lt_of_le_of_ne c.ge ?_)
  rintro rfl
  have hlt : (m * 2 ^ (-1074 : ℤ) : ℚ) < 2 ^ 52 * 2 ^ (-52 : ℤ) :=
    mul_two_zpow_lt c.lt (by norm_num)
  norm_num at hlt
  exact absurd h hlt.not_ge

/-! ### Decimals -/

/-- The number is exactly `n`. -/
def isExactly (n : ℕ) : UnpackedFloat → Bool
  | .finite .positive m q _ => m * 2 ^ q.toNat = n * 2 ^ (-q).toNat
  | _ => false

theorem exists_of_isExactly {n : ℕ} {u : UnpackedFloat} (h : isExactly n u = true) :
    ∃ (m : ℕ) (q : ℤ) (hm : 0 < m), u = .finite .positive m q hm ∧ (m * 2 ^ q : ℚ) = n := by
  cases u with
  | notANumber | infinity _ | zero _ => cases h
  | finite s m q hm =>
    cases s with
    | negative => cases h
    | positive =>
      refine ⟨m, q, hm, rfl, ?_⟩
      have hnat : m * 2 ^ q.toNat = n * 2 ^ (-q).toNat := of_decide_eq_true h
      have hcast : (m * 2 ^ q.toNat : ℚ) = n * 2 ^ (-q).toNat := by exact_mod_cast hnat
      rw [Binary.pow_toNat_eq (by norm_num) q, mul_comm (2 ^ (-q).toNat : ℚ), ← mul_assoc] at hcast
      exact mul_right_cancel₀ (by positivity) hcast

/-- The powers of ten that are doubles are in a table. -/
theorem isExactly_powersOfTen :
    ∀ e (h : e < Float.exactlyRepresentablePowersOfTen.size),
      isExactly (10 ^ e) (Float.exactlyRepresentablePowersOfTen[e]).toModel.unpack = true := by
  decide +kernel

theorem mul_ten_zpow_neg (a : ℚ) (k : ℕ) : a * 10 ^ (-k : ℤ) = a / 10 ^ k := by
  rw [zpow_neg, zpow_natCast, div_eq_mul_inv]

/-- Far above the range of exponents every number is infinite. -/
theorem overflow_le_mul_ten_zpow {m : ℕ} (hpos : 0 < m) {e : ℤ} (he : 2 ^ 11 < e) :
    (2 : ℚ) ^ 1024 - 2 ^ 970 ≤ m * 10 ^ e := by
  have hone : (1 : ℚ) ≤ m := by exact_mod_cast hpos
  calc (2 : ℚ) ^ 1024 - 2 ^ 970 ≤ 2 ^ 1024 := sub_le_self _ (by positivity)
    _ = 2 ^ ((1024 : ℕ) : ℤ) := (zpow_natCast 2 1024).symm
    _ ≤ 2 ^ e := zpow_le_zpow_right₀ (by norm_num) (by omega)
    _ ≤ 10 ^ e := zpow_le_zpow_left₀ (by omega) (by norm_num) (by norm_num)
    _ ≤ m * 10 ^ e := le_mul_of_one_le_left (by positivity) hone

/-- Far below it every number is zero, if the bits of the coefficient do not make up for that. -/
theorem mul_ten_zpow_le_half {m : ℕ} {e : ℤ} (he : e < -((2 ^ 11 : ℤ) + m.log2)) :
    (m * 10 ^ e : ℚ) ≤ 2 ^ (-1074 : ℤ) / 2 := by
  obtain ⟨k, rfl⟩ : ∃ k : ℕ, e = -k := ⟨(-e).toNat, by omega⟩
  have hbits : (m : ℚ) ≤ 2 ^ (m.log2 + 1) := by exact_mod_cast Nat.lt_log2_self.le
  have hten : (10 : ℚ) ^ (-k : ℤ) ≤ 2 ^ (-k : ℤ) := by
    rw [zpow_neg, zpow_neg, zpow_natCast, zpow_natCast]
    exact inv_anti₀ (by positivity) (pow_le_pow_left₀ (by norm_num) (by norm_num) k)
  calc (m : ℚ) * 10 ^ (-k : ℤ) ≤ 2 ^ (m.log2 + 1) * 2 ^ (-k : ℤ) := by gcongr
    _ = 2 ^ ((m.log2 : ℤ) + 1 - k) := pow_mul_zpow (by norm_num) (by push_cast; ring)
    _ ≤ 2 ^ (-1075 : ℤ) := zpow_le_zpow_right₀ (by norm_num) (by omega)
    _ = 2 ^ (-1074 : ℤ) / 2 := smallest_half_eq.symm

/-- The conversion by numbers of any size. Powers of ten that are out of any proportion to the range
of doubles are not computed. -/
theorem nearest_pack_ofScientific (m : ℕ) (e : ℤ) :
    Nearest (m * 10 ^ e)
      (unpack Format.binary64 (pack Format.binary64 (ofScientific Format.binary64 m e))) := by
  delta ofScientific
  by_cases hzero : m = 0
  · rw [dif_pos hzero, hzero, Nat.cast_zero, zero_mul]
    exact .zero (roundsTo_zero (by positivity))
  have hpos : 0 < m := Nat.pos_of_ne_zero hzero
  rw [dif_neg hzero]
  by_cases hlarge : e > 2 ^ 11
  · rw [if_pos hlarge]
    exact .infinity (overflow_le_mul_ten_zpow hpos hlarge)
  rw [if_neg hlarge]
  by_cases hsmall : e < -((2 ^ 11 : ℤ) + m.log2)
  · rw [if_pos hsmall]
    exact .zero (roundsTo_zero (mul_ten_zpow_le_half hsmall))
  rw [if_neg hsmall]
  refine Rounds.nearest ?_
  by_cases hsign : 0 ≤ e
  · obtain ⟨k, rfl⟩ := Int.eq_ofNat_of_zero_le hsign
    -- the shift is there to give the product enough bits
    have hbits : 2 ^ 52 ≤ m <<< 53 * 10 ^ k := by
      rw [Nat.shiftLeft_eq]
      calc 2 ^ 52 ≤ m * 2 ^ 53 := by omega
        _ ≤ m * 2 ^ 53 * 10 ^ k := Nat.le_mul_of_pos_right _ (by positivity)
    have hvalue : (m * 10 ^ (k : ℤ) : ℚ) =
        (m <<< 53 : ℕ) * 2 ^ (-(53 : ℕ) : ℤ) * ((10 ^ k : ℕ) * 2 ^ (0 : ℤ)) := by
      rw [Nat.shiftLeft_eq, zpow_natCast]
      push_cast
      ring
    rw [if_pos hsign, hvalue]
    exact rounds_mul _ _ hbits
  · obtain ⟨k, rfl⟩ : ∃ k : ℕ, e = -k := ⟨(-e).toNat, by omega⟩
    have hvalue : (m * 10 ^ (-k : ℤ) : ℚ) =
        m * 2 ^ (0 : ℤ) / ((10 ^ (- -(k : ℤ)).toNat : ℕ) * 2 ^ (0 : ℤ)) := by
      rw [neg_neg, Int.toNat_natCast, mul_ten_zpow_neg]
      push_cast
      rw [mul_one, mul_one]
    rw [if_neg hsign, hvalue]
    exact rounds_div _ _

/-- An integer below `2 ^ 53` and a power of ten that is a double give the nearest double in one
operation, since it rounds only once. -/
theorem nearest_mul_div {m e : ℕ} (hm : m < 2 ^ 53) {y : Float}
    (hy : isExactly (10 ^ e) y.toModel.unpack = true) :
    Nearest (m * 10 ^ e) (m.toUInt64.toFloat * y).toModel.unpack ∧
      Nearest (m / 10 ^ e) (m.toUInt64.toFloat / y).toModel.unpack := by
  have hmul : (m.toUInt64.toFloat * y).toModel.unpack = unpack Format.binary64 (pack Format.binary64
      (mul Format.binary64 m.toUInt64.toFloat.toModel.unpack y.toModel.unpack)) := rfl
  have hdiv : (m.toUInt64.toFloat / y).toModel.unpack = unpack Format.binary64 (pack Format.binary64
      (div Format.binary64 m.toUInt64.toFloat.toModel.unpack y.toModel.unpack)) := rfl
  -- `n * 2 ^ r` is the power of ten, as a double
  obtain ⟨n, r, hn, hunpack, hpower⟩ := exists_of_isExactly hy
  push_cast at hpower
  rw [hmul, hdiv, hunpack, ← hpower]
  rcases Nat.eq_zero_or_pos m with rfl | hpos
  · have hzero : (Nat.toUInt64 0).toFloat.toModel.unpack = .zero .positive := rfl
    have hproduct : mul Format.binary64 (.zero .positive) (.finite .positive n r hn) =
        .zero .positive := rfl
    have hquotient : div Format.binary64 (.zero .positive) (.finite .positive n r hn) =
        .zero .positive := rfl
    have hrounds : Rounds 0 (.zero .positive) := .zero (roundsTo_zero (by positivity))
    rw [hzero, hproduct, hquotient, Nat.cast_zero, zero_mul, zero_div]
    exact ⟨hrounds.nearest, hrounds.nearest⟩
  · obtain ⟨k, q, hk, hunpack', hvalue⟩ := unpack_toFloat hpos hm
    have hone : (1 : ℚ) ≤ k * 2 ^ q := by
      rw [hvalue]
      exact_mod_cast hpos
    have hbits := two_pow_le_of_one_le (isCanonical_of_unpack_eq hunpack').1 hone
    rw [hunpack', ← hvalue]
    exact ⟨(rounds_mul hk hn (hbits.trans (Nat.le_mul_of_pos_right k hn))).nearest,
      (rounds_div hk hn).nearest⟩

/-- A coefficient and a power of ten are converted to the nearest double. -/
theorem nearest_ofScientific (m : ℕ) (s : Bool) (e : ℕ) :
    Nearest (m * 10 ^ (if s then Int.negOfNat e else Int.ofNat e))
      (Float.ofScientific m s e).toModel.unpack := by
  delta Float.ofScientific
  by_cases hfast : m < 2 ^ 53 ∧ e ≤ 22
  · obtain ⟨hmul, hdiv⟩ := nearest_mul_div hfast.1 (isExactly_powersOfTen e (by
      show e < 23
      omega))
    rw [dif_pos hfast]
    cases s with
    | false =>
      rw [← zpow_natCast] at hmul
      exact hmul
    | true =>
      have hneg : (if true then Int.negOfNat e else Int.ofNat e) = -(e : ℤ) := Int.negOfNat_eq
      rw [hneg, mul_ten_zpow_neg]
      exact hdiv
  · rw [dif_neg hfast]
    exact nearest_pack_ofScientific m _

/-- The integers up to `2 ^ 53` are doubles. -/
theorem unpack_ofNat {n : ℕ} (hpos : 0 < n) (hle : n ≤ 2 ^ 53) :
    ∃ (m : ℕ) (q : ℤ) (hm : 0 < m),
      (Float.ofNat n).toModel.unpack = .finite .positive m q hm ∧ (m * 2 ^ q : ℚ) = n := by
  have hnearest : Nearest n (Float.ofNat n).toModel.unpack := by
    have hscientific := nearest_ofScientific n false 0
    rwa [show (10 : ℚ) ^ (if false then Int.negOfNat 0 else Int.ofNat 0) = 1 from zpow_zero 10,
      mul_one] at hscientific
  have hdouble : IsDouble n := by
    rcases hle.lt_or_eq with hlt | rfl
    · exact ⟨n, 0, hlt, by norm_num, by rw [zpow_zero, mul_one]⟩
    · exact ⟨2 ^ 52, 1, by norm_num, by norm_num, by norm_num⟩
  have hcast : (n : ℚ) ≤ 2 ^ 53 := by exact_mod_cast hle
  exact hnearest.exists_exact hdouble (by exact_mod_cast hpos) (hcast.trans_lt two_pow_lt_overflow)

end Double

namespace Decimal

open Double

/-- Three bits are less than a decimal digit. -/
theorem two_pow_le_ten_pow (k : ℕ) : (2 : ℚ) ^ (3 * k) ≤ 10 ^ k := by
  rw [pow_mul]
  exact pow_le_pow_left₀ (by norm_num) (by norm_num) k

/-- A decimal whose first digit stands far behind the point is zero. -/
theorem le_half_of_lt_limit {c : ℕ} {e : ℤ} (h : (digits c).length + e < -exponentLimit) :
    (c * 10 ^ e : ℚ) ≤ 2 ^ (-1074 : ℤ) / 2 := by
  have hlt : (c : ℚ) < 10 ^ (digits c).length := by
    exact_mod_cast Binary.lt_ten_pow_length_digits c
  rw [exponentLimit] at h
  calc (c * 10 ^ e : ℚ) ≤ 10 ^ (digits c).length * 10 ^ e := by gcongr
    _ = 10 ^ ((digits c).length + e) := pow_mul_zpow (by norm_num) rfl
    _ ≤ 10 ^ (-(401 : ℕ) : ℤ) := zpow_le_zpow_right₀ (by norm_num) (by omega)
    _ = (10 ^ 401)⁻¹ := by rw [zpow_neg, zpow_natCast]
    _ ≤ (2 ^ (3 * 401))⁻¹ := inv_anti₀ (by positivity) (two_pow_le_ten_pow 401)
    _ = 2 ^ (-(3 * 401 : ℕ) : ℤ) := by rw [zpow_neg, zpow_natCast]
    _ ≤ 2 ^ (-1075 : ℤ) := zpow_le_zpow_right₀ (by norm_num) (by norm_num)
    _ = 2 ^ (-1074 : ℤ) / 2 := smallest_half_eq.symm

/-- A decimal with too many digits in front of the point is infinite. -/
theorem overflow_le_of_limit_lt {c : ℕ} {e : ℤ} (hpos : 0 < c)
    (h : exponentLimit < (digits c).length + e) : (2 : ℚ) ^ 1024 - 2 ^ 970 ≤ c * 10 ^ e := by
  have hlength : 0 < (digits c).length := Nat.length_toDigits_pos
  have hge : (10 : ℚ) ^ ((digits c).length - 1) ≤ c := by
    exact_mod_cast Binary.ten_pow_length_digits_le hpos
  rw [exponentLimit] at h
  calc (2 : ℚ) ^ 1024 - 2 ^ 970 ≤ 2 ^ 1024 := sub_le_self _ (by positivity)
    _ ≤ 2 ^ (3 * 400) := pow_le_pow_right₀ (by norm_num) (by norm_num)
    _ ≤ 10 ^ 400 := two_pow_le_ten_pow 400
    _ = 10 ^ ((400 : ℕ) : ℤ) := (zpow_natCast 10 400).symm
    _ ≤ 10 ^ (((digits c).length - 1 : ℕ) + e) := zpow_le_zpow_right₀ (by norm_num) (by omega)
    _ = 10 ^ ((digits c).length - 1) * 10 ^ e := (pow_mul_zpow (by norm_num) rfl).symm
    _ ≤ c * 10 ^ e := by gcongr

/-- **Decimals.** A decimal is converted to the nearest double. That its order of magnitude alone
decides about numbers far outside of the range does no harm. -/
theorem toFloat_nearest (d : Decimal) : Nearest d.value d.toFloat.toModel.unpack := by
  obtain ⟨c, e⟩ := d
  delta toFloat
  dsimp only [value]
  by_cases hsmall : c = 0 ∨ (digits c).length + e < -exponentLimit
  · rw [if_pos hsmall]
    refine .zero (roundsTo_zero ?_)
    rcases hsmall with rfl | hsmall
    · rw [Nat.cast_zero, zero_mul]
      positivity
    · exact le_half_of_lt_limit hsmall
  · rw [if_neg hsmall]
    obtain ⟨hzero, -⟩ := not_or.1 hsmall
    by_cases hlarge : exponentLimit < (digits c).length + e
    · rw [if_pos hlarge]
      exact .infinity (overflow_le_of_limit_lt (Nat.pos_of_ne_zero hzero) hlarge)
    · rw [if_neg hlarge]
      cases e with
      | ofNat e => exact nearest_ofScientific c false e
      | negSucc e => exact nearest_ofScientific c true (e + 1)

end Decimal

end ArrowCalc
