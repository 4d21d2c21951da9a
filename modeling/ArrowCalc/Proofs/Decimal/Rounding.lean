import Mathlib.Algebra.Order.Field.Power
import Mathlib.Algebra.Order.Field.Rat
import Mathlib.Tactic.Linarith
import Mathlib.Tactic.NormNum
import Mathlib.Tactic.Positivity
import Mathlib.Tactic.Ring

/-!
# Rounding to the nearest double

The non-negative doubles are the numbers `m * 2 ^ q` with `m < 2 ^ 53` and `-1074 ≤ q`. Large
exponents are not cut off: a number that would round to `2 ^ 1024` or above is one that overflows.

A rational number rounds to the nearest double, and of two equally near ones to that whose
significand is even. `RoundsTo` says so by comparing with every other double.

## Main results

* `roundsTo_iff`: the numbers that round to a double are those of an interval around it, which
  reaches halfway to both neighbours and holds its ends exactly if the significand is even.
* `RoundsTo.le_of_le`: rounding is monotone.
* `RoundsTo.eq`: a number rounds to one double only.
-/

namespace ArrowCalc

/-- A non-negative double, as a rational number. -/
def IsDouble (r : ℚ) : Prop := ∃ (m : ℕ) (q : ℤ), m < 2 ^ 53 ∧ -1074 ≤ q ∧ r = m * 2 ^ q

/-- The representation `m * 2 ^ q` of a positive double whose significand is as large as it can be:
only the smallest exponent leaves its leading bit clear. -/
structure IsCanonical (m : ℕ) (q : ℤ) : Prop where
  pos : 0 < m
  lt : m < 2 ^ 53
  ge : -1074 ≤ q
  normal : -1074 < q → 2 ^ 52 ≤ m

/-- Among the doubles `m * 2 ^ q` is the one nearest to `p`; if another one is just as near, then
`m` is even. -/
def RoundsTo (p : ℚ) (m : ℕ) (q : ℤ) : Prop :=
  ∀ r, IsDouble r → r ≠ m * 2 ^ q →
    |p - m * 2 ^ q| < |p - r| ∨ (|p - m * 2 ^ q| = |p - r| ∧ m % 2 = 0)

theorem RoundsTo.abs_le {p r : ℚ} {m : ℕ} {q : ℤ} (h : RoundsTo p m q) (hr : IsDouble r) :
    |p - m * 2 ^ q| ≤ |p - r| := by
  by_cases heq : r = m * 2 ^ q
  · rw [heq]
  · rcases h r hr heq with hlt | ⟨hle, -⟩
    · exact hlt.le
    · exact hle.le

theorem IsCanonical.isDouble {m : ℕ} {q : ℤ} (h : IsCanonical m q) : IsDouble (m * 2 ^ q) :=
  ⟨m, q, h.lt, h.ge, rfl⟩

/-! ### Neighbours -/

/-- Powers with natural and with integral exponents of one number multiply to a power. -/
theorem pow_mul_zpow {a : ℚ} (ha : a ≠ 0) {k : ℕ} {e z : ℤ} (h : (k : ℤ) + e = z) :
    a ^ k * a ^ e = a ^ z := by
  rw [← zpow_natCast, ← zpow_add₀ ha, h]

/-- A significand does not make up for a smaller exponent, if the other has its leading bit. -/
theorem mul_two_zpow_lt {m : ℕ} {q q' : ℤ} (hm : m < 2 ^ 53) (hq : q < q') :
    (m * 2 ^ q : ℚ) < 2 ^ 52 * 2 ^ q' := by
  have hpow : (2 : ℚ) ^ (q + 1) ≤ 2 ^ q' := zpow_le_zpow_right₀ (by norm_num) (by omega)
  have hcast : (m : ℚ) < 2 ^ 53 := by exact_mod_cast hm
  calc (m * 2 ^ q : ℚ) < 2 ^ 53 * 2 ^ q := by gcongr
    _ = 2 ^ 52 * 2 ^ (q + 1) := by rw [zpow_add_one₀ (by norm_num)]; ring
    _ ≤ 2 ^ 52 * 2 ^ q' := by gcongr

section Neighbours

variable {r : ℚ} {m : ℕ} {q : ℤ}

/-- A double with a smaller exponent is below `2 ^ 52 * 2 ^ q`; any other is a multiple of
`2 ^ q`. -/
theorem IsDouble.lt_or_eq_mul (hr : IsDouble r) (q : ℤ) :
    (-1074 < q ∧ r < 2 ^ 52 * 2 ^ q) ∨ ∃ k : ℕ, r = k * 2 ^ q := by
  obtain ⟨m', q', hm', hq', rfl⟩ := hr
  rcases lt_or_ge q' q with hlt | hge
  · exact .inl ⟨by omega, mul_two_zpow_lt hm' hlt⟩
  · refine .inr ⟨m' * 2 ^ (q' - q).toNat, ?_⟩
    push_cast
    rw [mul_assoc, pow_mul_zpow (z := q') (by norm_num) (by omega)]

/-- Nothing lies between a double and the next multiple of its unit. -/
theorem IsDouble.succ_le (hr : IsDouble r) (hm : -1074 < q → 2 ^ 52 ≤ m) (h : m * 2 ^ q < r) :
    (m + 1) * 2 ^ q ≤ r := by
  have hpow : (0 : ℚ) < 2 ^ q := by positivity
  rcases hr.lt_or_eq_mul q with ⟨hq, hlt⟩ | ⟨k, rfl⟩
  · have hcast : (2 ^ 52 : ℚ) ≤ m := by exact_mod_cast hm hq
    have hle : (2 ^ 52 : ℚ) * 2 ^ q ≤ m * 2 ^ q := by gcongr
    exact absurd h (hlt.trans_le hle).not_gt
  · have hk : m < k := by exact_mod_cast lt_of_mul_lt_mul_right h hpow.le
    have hcast : (m + 1 : ℚ) ≤ k := by exact_mod_cast hk
    gcongr

/-- Nothing lies between a multiple of the unit and the one before it. -/
theorem IsDouble.le_pred (hr : IsDouble r) (hm : -1074 < q → 2 ^ 52 < m) (h : r < m * 2 ^ q) :
    r ≤ (m - 1) * 2 ^ q := by
  have hpow : (0 : ℚ) < 2 ^ q := by positivity
  rcases hr.lt_or_eq_mul q with ⟨hq, hlt⟩ | ⟨k, rfl⟩
  · have hcast : (2 ^ 52 + 1 : ℚ) ≤ m := by exact_mod_cast hm hq
    have hle : (2 ^ 52 : ℚ) ≤ m - 1 := by linarith
    exact hlt.le.trans (by gcongr)
  · have hk : k < m := by exact_mod_cast lt_of_mul_lt_mul_right h hpow.le
    have hcast : (k + 1 : ℚ) ≤ m := by exact_mod_cast hk
    have hle : (k : ℚ) ≤ m - 1 := by linarith
    gcongr

theorem IsCanonical.isDouble_succ (h : IsCanonical m q) : IsDouble ((m + 1) * 2 ^ q) := by
  by_cases htop : m + 1 = 2 ^ 53
  · refine ⟨2 ^ 52, q + 1, by norm_num, by have := h.ge; omega, ?_⟩
    have hcast : (m + 1 : ℚ) = 2 ^ 53 := by exact_mod_cast htop
    rw [hcast, zpow_add_one₀ (by norm_num)]
    push_cast
    ring
  · exact ⟨m + 1, q, by have := h.lt; omega, h.ge, by push_cast; rfl⟩

end Neighbours

/-! ### The interval of the numbers that round to a double -/

/-- Below a power of two the doubles lie twice as dense, except at the bottom of the range. -/
def IsNarrow (m : ℕ) (q : ℤ) : Prop := m = 2 ^ 52 ∧ -1074 < q

instance (m : ℕ) (q : ℤ) : Decidable (IsNarrow m q) := inferInstanceAs (Decidable (_ ∧ _))

/-- The distance to the double below. -/
def gapBelow (m : ℕ) (q : ℤ) : ℚ := if IsNarrow m q then 2 ^ q / 2 else 2 ^ q

theorem gapBelow_pos (m : ℕ) (q : ℤ) : 0 < gapBelow m q := by
  unfold gapBelow
  split <;> positivity

/-- The double below, written with a unit of which it is a multiple. -/
theorem IsCanonical.exists_pred {m : ℕ} {q : ℤ} (h : IsCanonical m q) :
    ∃ (m' : ℕ) (q' : ℤ), 0 < m' ∧ m' ≤ 2 ^ 53 ∧ -1074 ≤ q' ∧ (-1074 < q' → 2 ^ 52 < m') ∧
      (m * 2 ^ q : ℚ) = m' * 2 ^ q' ∧ gapBelow m q = 2 ^ q' := by
  by_cases hn : IsNarrow m q
  · obtain ⟨rfl, hq⟩ := hn
    have hhalf : (2 : ℚ) ^ q = 2 ^ (q - 1) * 2 := by
      rw [← zpow_add_one₀ (by norm_num)]
      congr 1
      omega
    refine ⟨2 ^ 53, q - 1, by norm_num, le_rfl, by omega, fun _ => by norm_num, ?_, ?_⟩
    · rw [hhalf]
      push_cast
      ring
    · rw [gapBelow, if_pos ⟨rfl, hq⟩, hhalf]
      ring
  · refine ⟨m, q, h.pos, h.lt.le, h.ge, fun hq => ?_, rfl, if_neg hn⟩
    exact lt_of_le_of_ne (h.normal hq) fun heq => hn ⟨heq.symm, hq⟩

theorem IsCanonical.isDouble_pred {m : ℕ} {q : ℤ} (h : IsCanonical m q) :
    IsDouble (m * 2 ^ q - gapBelow m q) := by
  obtain ⟨m', q', hpos, hle, hq', -, hvalue, hgap⟩ := h.exists_pred
  refine ⟨m' - 1, q', by omega, hq', ?_⟩
  rw [hvalue, hgap, Nat.cast_sub hpos]
  push_cast
  ring

theorem IsCanonical.le_sub_gapBelow {m : ℕ} {q : ℤ} {r : ℚ} (h : IsCanonical m q)
    (hr : IsDouble r) (hlt : r < m * 2 ^ q) : r ≤ m * 2 ^ q - gapBelow m q := by
  obtain ⟨m', q', -, -, -, hnormal, hvalue, hgap⟩ := h.exists_pred
  rw [hvalue] at hlt ⊢
  have := hr.le_pred hnormal hlt
  rw [hgap]
  linarith

/-- `p` is in the interval of `m * 2 ^ q`, which is closed exactly if `m` is even. -/
def InInterval (p : ℚ) (m : ℕ) (q : ℤ) : Prop :=
  if m % 2 = 0 then m * 2 ^ q - gapBelow m q / 2 ≤ p ∧ p ≤ m * 2 ^ q + 2 ^ q / 2
  else m * 2 ^ q - gapBelow m q / 2 < p ∧ p < m * 2 ^ q + 2 ^ q / 2

theorem InInterval.le {p : ℚ} {m : ℕ} {q : ℤ} (h : InInterval p m q) :
    m * 2 ^ q - gapBelow m q / 2 ≤ p ∧ p ≤ m * 2 ^ q + 2 ^ q / 2 := by
  unfold InInterval at h
  split at h
  · exact h
  · exact ⟨h.1.le, h.2.le⟩

theorem inInterval_of_lt {p : ℚ} {m : ℕ} {q : ℤ} (hlo : m * 2 ^ q - gapBelow m q / 2 < p)
    (hhi : p < m * 2 ^ q + 2 ^ q / 2) : InInterval p m q := by
  unfold InInterval
  split
  · exact ⟨hlo.le, hhi.le⟩
  · exact ⟨hlo, hhi⟩

/-- An interval holds what lies between two of its members. -/
theorem InInterval.between {p s t : ℚ} {m : ℕ} {q : ℤ} (hs : InInterval s m q)
    (ht : InInterval t m q) (hsp : s ≤ p) (hpt : p ≤ t) : InInterval p m q := by
  unfold InInterval at *
  split at hs
  · rename_i heven
    rw [if_pos heven] at ht ⊢
    exact ⟨hs.1.trans hsp, hpt.trans ht.2⟩
  · rename_i hodd
    rw [if_neg hodd] at ht ⊢
    exact ⟨hs.1.trans_le hsp, hpt.trans_lt ht.2⟩

theorem inInterval_self (m : ℕ) (q : ℤ) : InInterval (m * 2 ^ q) m q := by
  have hgap := gapBelow_pos m q
  have hpow : (0 : ℚ) < 2 ^ q := by positivity
  exact inInterval_of_lt (by linarith) (by linarith)

/-- Being at least as near to `v` as to a larger `w` is being on the lower side of their middle. -/
theorem abs_sub_le_abs_sub_iff {p v w : ℚ} (h : v < w) : |p - v| ≤ |p - w| ↔ p ≤ (v + w) / 2 := by
  rw [← sq_le_sq]
  constructor
  · intro hle
    nlinarith
  · intro hle
    nlinarith

theorem abs_sub_lt_abs_sub_iff {p v w : ℚ} (h : v < w) : |p - v| < |p - w| ↔ p < (v + w) / 2 := by
  rw [← sq_lt_sq]
  constructor
  · intro hlt
    nlinarith
  · intro hlt
    nlinarith

theorem abs_sub_le_abs_sub_iff' {p v w : ℚ} (h : w < v) : |p - v| ≤ |p - w| ↔ (v + w) / 2 ≤ p := by
  rw [← not_lt, abs_sub_lt_abs_sub_iff h, not_lt, add_comm]

theorem abs_sub_lt_abs_sub_iff' {p v w : ℚ} (h : w < v) : |p - v| < |p - w| ↔ (v + w) / 2 < p := by
  rw [← not_le, abs_sub_le_abs_sub_iff h, not_le, add_comm]

/-- Rounding compares with all doubles, but the two neighbours decide. -/
theorem roundsTo_iff {p : ℚ} {m : ℕ} {q : ℤ} (h : IsCanonical m q) :
    RoundsTo p m q ↔ InInterval p m q := by
  have hpow : (0 : ℚ) < 2 ^ q := by positivity
  have hgap := gapBelow_pos m q
  have hup : (m * 2 ^ q : ℚ) < (m + 1) * 2 ^ q := by linarith
  have hdown : m * 2 ^ q - gapBelow m q < m * 2 ^ q := by linarith
  constructor
  · intro hp
    have hnext := hp _ h.isDouble_succ hup.ne'
    have hprev := hp _ h.isDouble_pred hdown.ne
    unfold InInterval
    split
    · have hle := (abs_sub_le_abs_sub_iff hup).1 (hp.abs_le h.isDouble_succ)
      have hge := (abs_sub_le_abs_sub_iff' hdown).1 (hp.abs_le h.isDouble_pred)
      constructor <;> linarith
    · rename_i hodd
      have hlt := (abs_sub_lt_abs_sub_iff hup).1 (hnext.resolve_right fun h => hodd h.2)
      have hgt := (abs_sub_lt_abs_sub_iff' hdown).1 (hprev.resolve_right fun h => hodd h.2)
      constructor <;> linarith
  · intro hp r hr hne
    obtain ⟨hlo, hhi⟩ := hp.le
    -- Every other double is at least as far as the neighbour on its side.
    have hle : |p - m * 2 ^ q| ≤ |p - r| := by
      rcases lt_or_gt_of_ne hne with hlt | hgt
      · have := h.le_sub_gapBelow hr hlt
        exact (abs_sub_le_abs_sub_iff' hlt).2 (by linarith)
      · have := hr.succ_le h.normal hgt
        exact (abs_sub_le_abs_sub_iff hgt).2 (by linarith)
    by_cases heven : m % 2 = 0
    · exact hle.lt_or_eq.imp_right fun heq => ⟨heq, heven⟩
    · left
      rw [InInterval, if_neg heven] at hp
      rcases lt_or_gt_of_ne hne with hlt | hgt
      · have := h.le_sub_gapBelow hr hlt
        exact (abs_sub_lt_abs_sub_iff' hlt).2 (by linarith [hp.1])
      · have := hr.succ_le h.normal hgt
        exact (abs_sub_lt_abs_sub_iff hgt).2 (by linarith [hp.2])

/-! ### Monotonicity -/

/-- Two canonical representations of different doubles are ordered by the exponent first. -/
theorem IsCanonical.lt_of_exponent_lt {m₁ m₂ : ℕ} {q₁ q₂ : ℤ} (h₁ : IsCanonical m₁ q₁)
    (h₂ : IsCanonical m₂ q₂) (hq : q₁ < q₂) : (m₁ * 2 ^ q₁ : ℚ) < m₂ * 2 ^ q₂ := by
  have hnormal : (2 ^ 52 : ℚ) ≤ m₂ := by exact_mod_cast h₂.normal (by have := h₁.ge; omega)
  calc (m₁ * 2 ^ q₁ : ℚ) < 2 ^ 52 * 2 ^ q₂ := mul_two_zpow_lt h₁.lt hq
    _ ≤ m₂ * 2 ^ q₂ := by gcongr

/-- A double has one canonical representation. -/
theorem IsCanonical.eq_of_value_eq {m₁ m₂ : ℕ} {q₁ q₂ : ℤ} (h₁ : IsCanonical m₁ q₁)
    (h₂ : IsCanonical m₂ q₂) (h : (m₁ * 2 ^ q₁ : ℚ) = m₂ * 2 ^ q₂) : m₁ = m₂ ∧ q₁ = q₂ := by
  rcases lt_trichotomy q₁ q₂ with hlt | rfl | hgt
  · exact absurd h (h₁.lt_of_exponent_lt h₂ hlt).ne
  · have hpow : (2 : ℚ) ^ q₁ ≠ 0 := by positivity
    exact ⟨by exact_mod_cast mul_right_cancel₀ hpow h, rfl⟩
  · exact absurd h (h₂.lt_of_exponent_lt h₁ hgt).ne'

/-- If a smaller number rounds to a larger double, then both lie halfway between the doubles. -/
theorem RoundsTo.eq_middle {p₁ p₂ : ℚ} {m₁ m₂ : ℕ} {q₁ q₂ : ℤ} (c₁ : IsCanonical m₁ q₁)
    (c₂ : IsCanonical m₂ q₂) (h₁ : RoundsTo p₁ m₁ q₁) (h₂ : RoundsTo p₂ m₂ q₂) (hp : p₁ ≤ p₂)
    (hlt : (m₂ * 2 ^ q₂ : ℚ) < m₁ * 2 ^ q₁) :
    p₁ = p₂ ∧ p₁ = (m₂ * 2 ^ q₂ + m₁ * 2 ^ q₁) / 2 := by
  have hge := (abs_sub_le_abs_sub_iff' hlt).1 (h₁.abs_le c₂.isDouble)
  have hle := (abs_sub_le_abs_sub_iff hlt).1 (h₂.abs_le c₁.isDouble)
  constructor <;> linarith

/-- The double that follows one with an even significand has an odd one. -/
theorem IsCanonical.succ {m : ℕ} {q : ℤ} (h : IsCanonical m q) (heven : m % 2 = 0) :
    IsCanonical (m + 1) q where
  pos := m.succ_pos
  lt := by have := h.lt; omega
  ge := h.ge
  normal hq := (h.normal hq).trans m.le_succ

theorem RoundsTo.not_value_lt {p : ℚ} {m₁ m₂ : ℕ} {q₁ q₂ : ℤ} (c₁ : IsCanonical m₁ q₁)
    (c₂ : IsCanonical m₂ q₂) (h₁ : RoundsTo p m₁ q₁) (h₂ : RoundsTo p m₂ q₂) :
    ¬ (m₁ * 2 ^ q₁ : ℚ) < m₂ * 2 ^ q₂ := by
  intro hlt
  obtain ⟨-, hmid⟩ := h₂.eq_middle c₂ c₁ h₁ le_rfl hlt
  have heven₁ : m₁ % 2 = 0 := by
    refine ((h₁ _ c₂.isDouble hlt.ne').resolve_left ?_).2
    rw [abs_sub_lt_abs_sub_iff hlt, hmid]
    exact lt_irrefl _
  have heven₂ : m₂ % 2 = 0 := by
    refine ((h₂ _ c₁.isDouble hlt.ne).resolve_left ?_).2
    rw [abs_sub_lt_abs_sub_iff' hlt, hmid, add_comm]
    exact lt_irrefl _
  -- Two doubles with even significands are no neighbours, and the one between them is nearer.
  have c := c₁.succ heven₁
  have hnext : (m₁ * 2 ^ q₁ : ℚ) < (m₁ + 1 : ℕ) * 2 ^ q₁ := by
    have hpow : (0 : ℚ) < 2 ^ q₁ := by positivity
    push_cast
    linarith
  have hnear := (abs_sub_le_abs_sub_iff hnext).1 (h₁.abs_le c.isDouble)
  have hle : ((m₁ + 1 : ℕ) * 2 ^ q₁ : ℚ) ≤ m₂ * 2 ^ q₂ := by
    push_cast
    exact c₂.isDouble.succ_le c₁.normal hlt
  obtain ⟨hm, -⟩ := c.eq_of_value_eq c₂ (le_antisymm hle (by linarith))
  omega

/-- A number rounds to one double only. -/
theorem RoundsTo.eq {p : ℚ} {m₁ m₂ : ℕ} {q₁ q₂ : ℤ} (c₁ : IsCanonical m₁ q₁)
    (c₂ : IsCanonical m₂ q₂) (h₁ : RoundsTo p m₁ q₁) (h₂ : RoundsTo p m₂ q₂) :
    m₁ = m₂ ∧ q₁ = q₂ :=
  c₁.eq_of_value_eq c₂ <|
    le_antisymm (not_lt.1 (h₂.not_value_lt c₂ c₁ h₁)) (not_lt.1 (h₁.not_value_lt c₁ c₂ h₂))

/-- Rounding is monotone. -/
theorem RoundsTo.le_of_le {p₁ p₂ : ℚ} {m₁ m₂ : ℕ} {q₁ q₂ : ℤ} (c₁ : IsCanonical m₁ q₁)
    (c₂ : IsCanonical m₂ q₂) (h₁ : RoundsTo p₁ m₁ q₁) (h₂ : RoundsTo p₂ m₂ q₂) (hp : p₁ ≤ p₂) :
    (m₁ * 2 ^ q₁ : ℚ) ≤ m₂ * 2 ^ q₂ := by
  by_contra hnot
  obtain ⟨rfl, -⟩ := h₁.eq_middle c₁ c₂ h₂ hp (not_le.1 hnot)
  exact hnot (not_lt.1 (h₂.not_value_lt c₂ c₁ h₁))

end ArrowCalc
