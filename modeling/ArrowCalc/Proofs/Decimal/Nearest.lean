import ArrowCalc.Proofs.Decimal.Doubles

/-!
# The nearest double

A rational number is converted to the double that is nearest to it. `RoundsTo` compares with all
numbers `m * 2 ^ q` where the exponent `q` has no upper bound, and says nothing about bits. What is
said here is about a pattern of 64 bits: `Nearest` tells which number a pattern has to stand for.

The upper bound of the exponents is the only difference. What would be rounded to `2 ^ 1024` or more
is infinite, and this happens from the middle between the largest double and `2 ^ 1024` on: the
middle itself is as near to the one as to the other, and the significand of the largest double is
odd.

Uniqueness is what makes `Nearest` usable as a specification. Two numbers that are nearest to the
same rational number could differ in two ways. They could have different values, which `RoundsTo.eq`
excludes for positive doubles, so that zero and infinity are left. Or one value could have several
patterns; only NaN has.

## Main definitions

* `Decimal.value` — a decimal as a rational number
* `Double.Nearest` — the double nearest to a rational number

## Main results

* `Double.Nearest.eq` — there is one nearest double only
* `Double.Nearest.exists_exact` — a double is nearest to itself alone
-/

namespace ArrowCalc

/-- The number `coefficient * 10 ^ exponent`. -/
def Decimal.value (d : Decimal) : ℚ := d.coefficient * 10 ^ d.exponent

namespace Double

open Float.Model (UnpackedFloat)

/-! ### Nearest numbers -/

/-- The double nearest to a non-negative number; of two equally near ones it is that with the even
significand. Numbers that are nearer to `2 ^ 1024` than to any double are infinite, and so is the
middle between `2 ^ 1024` and the largest double. -/
inductive Nearest (p : ℚ) : UnpackedFloat → Prop
  | zero (h : RoundsTo p 0 (-1074)) : Nearest p (.zero .positive)
  | finite {m : ℕ} {q : ℤ} (hm : 0 < m) (h : RoundsTo p m q) : Nearest p (.finite .positive m q hm)
  | infinity (h : 2 ^ 1024 - 2 ^ 970 ≤ p) : Nearest p (.infinity .positive)

/-- Numbers up to half of the smallest double round to zero. -/
theorem roundsTo_zero {p : ℚ} (h : p ≤ 2 ^ (-1074 : ℤ) / 2) : RoundsTo p 0 (-1074) := by
  intro r hr hne
  rw [Nat.cast_zero, zero_mul] at hne ⊢
  obtain ⟨m, q, -, hq, rfl⟩ := hr
  have hm : m ≠ 0 := by
    rintro rfl
    exact hne (by rw [Nat.cast_zero, zero_mul])
  have hone : (1 : ℚ) ≤ m := by exact_mod_cast Nat.one_le_iff_ne_zero.2 hm
  have hpow : (2 : ℚ) ^ (-1074 : ℤ) ≤ 2 ^ q := zpow_le_zpow_right₀ (by norm_num) hq
  have hpos : (0 : ℚ) < 2 ^ q := by positivity
  have hle : (2 : ℚ) ^ q ≤ m * 2 ^ q := le_mul_of_one_le_left hpos.le hone
  have hnear : |p - 0| ≤ |p - m * 2 ^ q| :=
    (abs_sub_le_abs_sub_iff (hpos.trans_le hle)).2 (by linarith)
  exact hnear.lt_or_eq.imp_right fun heq => ⟨heq, rfl⟩

/-- What rounds to zero is at most half of the smallest double. -/
theorem le_of_roundsTo_zero {p : ℚ} (h : RoundsTo p 0 (-1074)) : p ≤ 2 ^ (-1074 : ℤ) / 2 := by
  have hdouble : IsDouble (2 ^ (-1074 : ℤ)) := ⟨1, -1074, by norm_num, le_rfl, by norm_num⟩
  have hnear := h.abs_le hdouble
  rw [Nat.cast_zero, zero_mul, abs_sub_le_abs_sub_iff (by positivity)] at hnear
  linarith

/-- Only the smallest double is as near to a number as zero is, and its significand is odd. -/
theorem not_roundsTo_of_roundsTo_zero {p : ℚ} {m : ℕ} {q : ℤ} (c : IsCanonical m q)
    (hzero : RoundsTo p 0 (-1074)) : ¬ RoundsTo p m q := by
  intro h
  have hle := le_of_roundsTo_zero hzero
  have hpos : (0 : ℚ) < 2 ^ q := by positivity
  have hpow : (2 : ℚ) ^ (-1074 : ℤ) ≤ 2 ^ q := zpow_le_zpow_right₀ (by norm_num) c.ge
  have hone : (1 : ℚ) ≤ m := by exact_mod_cast c.pos
  have hgap : gapBelow m q ≤ 2 ^ q := by
    unfold gapBelow
    split <;> linarith
  have hinterval := (roundsTo_iff c).1 h
  obtain ⟨hlow, -⟩ := hinterval.le
  have hm : (m : ℚ) * 2 ^ q ≤ 2 ^ q := by linarith
  have hle_one : (m : ℚ) ≤ 1 := le_of_mul_le_mul_right (by rwa [one_mul]) hpos
  obtain rfl : m = 1 := le_antisymm (by exact_mod_cast hle_one) c.pos
  rw [InInterval, if_neg (by norm_num)] at hinterval
  rw [Nat.cast_one, one_mul] at hinterval
  linarith [hinterval.1]

/-- The middle between the largest double and `2 ^ 1024`, in units of the largest double. -/
theorem mul_two_zpow_eq_overflow :
    ((2 : ℚ) ^ 53 - 1 / 2) * 2 ^ (971 : ℤ) = 2 ^ 1024 - 2 ^ 970 := by
  have hunit : (2 : ℚ) ^ (971 : ℤ) = 2 ^ 970 * 2 := by
    rw [show (971 : ℤ) = ((970 + 1 : ℕ) : ℤ) from rfl, zpow_natCast, pow_succ]
  have htop : (2 : ℚ) ^ 1024 = 2 ^ 970 * 2 ^ 54 := pow_add 2 970 54
  rw [hunit, htop]
  generalize (2 : ℚ) ^ 970 = unit
  ring

/-- What rounds to a double is below the middle between the largest double and `2 ^ 1024`. -/
theorem lt_of_roundsTo {p : ℚ} {m : ℕ} {q : ℤ} (c : IsCanonical m q) (hq : q ≤ 971)
    (h : RoundsTo p m q) : p < 2 ^ 1024 - 2 ^ 970 := by
  have hinterval := (roundsTo_iff c).1 h
  have hpow : (2 : ℚ) ^ q ≤ 2 ^ (971 : ℤ) := zpow_le_zpow_right₀ (by norm_num) hq
  have hpos : (0 : ℚ) < 2 ^ q := by positivity
  have hscale : ((2 : ℚ) ^ 53 - 1 / 2) * 2 ^ q ≤ (2 ^ 53 - 1 / 2) * 2 ^ (971 : ℤ) :=
    mul_le_mul_of_nonneg_left hpow (by norm_num)
  rw [mul_two_zpow_eq_overflow] at hscale
  rcases Nat.lt_or_ge (m + 1) (2 ^ 53) with hlt | hge
  · have hcast : (m + 1 / 2 : ℚ) < 2 ^ 53 - 1 / 2 := by
      have hnat : (m + 1 : ℚ) < 2 ^ 53 := by exact_mod_cast hlt
      linarith
    calc p ≤ (m + 1 / 2) * 2 ^ q := by linarith [hinterval.le.2]
      _ < (2 ^ 53 - 1 / 2) * 2 ^ q := by gcongr
      _ ≤ 2 ^ 1024 - 2 ^ 970 := hscale
  · -- the significand is the largest one, which is odd
    have hlt := c.lt
    obtain rfl : m = 2 ^ 53 - 1 := by omega
    rw [InInterval, if_neg (by norm_num)] at hinterval
    have hcast : ((2 ^ 53 - 1 : ℕ) : ℚ) = 2 ^ 53 - 1 := by norm_num
    rw [hcast] at hinterval
    calc p < (2 ^ 53 - 1 / 2) * 2 ^ q := by linarith [hinterval.2]
      _ ≤ 2 ^ 1024 - 2 ^ 970 := hscale

/-! ### Uniqueness -/

/-- The fields of a finite pattern determine the pattern, which is `ofBits_pattern` read
backwards. -/
theorem pattern_ofBits {bits m : ℕ} {q : ℤ} (hlt : bits < 9218868437227405312)
    (hsignificand : (Binary.ofBits bits).significand = m)
    (hexponent : (Binary.ofBits bits).exponent = q) :
    bits = if m < 2 ^ 52 then m else (q + 1074).toNat * 2 ^ 52 + m := by
  rw [Binary.ofBits] at hsignificand hexponent
  by_cases hlow : bits / 4503599627370496 % 2048 = 0
  · have hfraction : bits % 4503599627370496 = m := by rwa [if_pos hlow] at hsignificand
    rw [if_pos (by omega)]
    omega
  · have hfraction : bits % 4503599627370496 + 4503599627370496 = m := by
      rwa [if_neg hlow] at hsignificand
    have hbiased : ((bits / 4503599627370496 % 2048 : ℕ) : ℤ) - 1075 = q := by
      rwa [if_neg hlow] at hexponent
    rw [if_neg (by omega)]
    omega

/-- Numbers other than NaN differ in their bits. -/
theorem eq_of_decodes {a b : ℕ} (ha : a < 2 ^ 64) (hb : b < 2 ^ 64) {u : UnpackedFloat}
    (hda : Decodes a u) (hdb : Decodes b u) (hu : u ≠ .notANumber) : a = b := by
  have hsign : sign a = sign b → a % 2 ^ 63 = b % 2 ^ 63 → a = b := by
    intro h hmod
    unfold sign at h
    split at h <;> split at h <;> first | omega | cases h
  cases hda with
  | notANumber _ => exact absurd rfl hu
  | infinity hmod =>
    generalize hs : sign a = s at hdb
    cases hdb with
    | infinity hmod' => exact hsign hs (hmod.trans hmod'.symm)
  | zero hmod =>
    generalize hs : sign a = s at hdb
    cases hdb with
    | zero hmod' => exact hsign hs (hmod.trans hmod'.symm)
  | finite hm _ hlt hsignificand hexponent =>
    generalize hs : sign a = s at hdb
    cases hdb with
    | finite _ _ hlt' hsignificand' hexponent' =>
      refine hsign hs ((pattern_ofBits hlt hsignificand hexponent).trans ?_)
      exact (pattern_ofBits hlt' hsignificand' hexponent').symm

theorem eq_of_unpack_eq {x y : Float} (h : x.toModel.unpack = y.toModel.unpack)
    (hx : x.toModel.unpack ≠ .notANumber) : x = y := by
  have hbits : x.toModel.toBits = y.toModel.toBits :=
    UInt64.toNat_inj.1 (eq_of_decodes x.toBits.toNat_lt y.toBits.toNat_lt (decodes_unpack x)
      (h ▸ decodes_unpack y) hx)
  obtain ⟨⟨a, ha⟩⟩ := x
  obtain ⟨⟨b, hb⟩⟩ := y
  obtain rfl : a = b := hbits
  rfl

theorem two_pow_lt_overflow : (2 : ℚ) ^ 53 < 2 ^ 1024 - 2 ^ 970 := by
  have hunit : (1 : ℚ) ≤ 2 ^ 970 := one_le_pow₀ (by norm_num)
  have htop : (2 : ℚ) ^ 1024 = 2 ^ 970 * 2 ^ 54 := pow_add 2 970 54
  rw [htop]
  clear htop
  generalize (2 : ℚ) ^ 970 = unit at *
  linarith

theorem smallest_half_eq : (2 : ℚ) ^ (-1074 : ℤ) / 2 = 2 ^ (-1075 : ℤ) := by
  rw [show (-1075 : ℤ) = -1074 - 1 by norm_num, zpow_sub_one₀ (by norm_num), div_eq_mul_inv]

/-- Half of the smallest double is far below all integers. -/
theorem smallest_half_lt_one : (2 : ℚ) ^ (-1074 : ℤ) / 2 < 1 := by
  have hpow : (2 : ℚ) ^ (-1074 : ℤ) ≤ 1 := zpow_le_one_of_nonpos₀ (by norm_num) (by norm_num)
  linarith

theorem Nearest.ne_notANumber {p : ℚ} {u : UnpackedFloat} (h : Nearest p u) :
    u ≠ .notANumber := by
  rintro rfl
  cases h

/-- There is one nearest double only. -/
theorem Nearest.eq {p : ℚ} {x y : Float} (hx : Nearest p x.toModel.unpack)
    (hy : Nearest p y.toModel.unpack) : x = y := by
  refine eq_of_unpack_eq ?_ hx.ne_notANumber
  have hcx := @isCanonical_of_unpack_eq x .positive
  have hcy := @isCanonical_of_unpack_eq y .positive
  -- zero is far from the range of the infinite numbers
  have hfar : RoundsTo p 0 (-1074) → 2 ^ 1024 - 2 ^ 970 ≤ p → False := by
    intro hzero hlarge
    have hone : (1 : ℚ) ≤ 2 ^ 53 := by norm_num
    have hle : 1 ≤ p := (hone.trans two_pow_lt_overflow.le).trans hlarge
    exact absurd ((le_of_roundsTo_zero hzero).trans_lt smallest_half_lt_one) hle.not_gt
  generalize x.toModel.unpack = u at *
  generalize y.toModel.unpack = v at *
  cases hx with
  | zero h =>
    cases hy with
    | zero _ => rfl
    | finite hm h' => exact absurd h' (not_roundsTo_of_roundsTo_zero (hcy rfl).1 h)
    | infinity h' => exact (hfar h h').elim
  | finite hm h =>
    cases hy with
    | zero h' => exact absurd h (not_roundsTo_of_roundsTo_zero (hcx rfl).1 h')
    | finite hm' h' =>
      obtain ⟨rfl, rfl⟩ := h.eq (hcx rfl).1 (hcy rfl).1 h'
      rfl
    | infinity h' => exact absurd (lt_of_roundsTo (hcx rfl).1 (hcx rfl).2 h) h'.not_gt
  | infinity h =>
    cases hy with
    | zero h' => exact (hfar h' h).elim
    | finite hm' h' => exact absurd (lt_of_roundsTo (hcy rfl).1 (hcy rfl).2 h') h.not_gt
    | infinity _ => rfl

/-- A double is nearest to itself alone. -/
theorem Nearest.exists_exact {p : ℚ} {u : UnpackedFloat} (h : Nearest p u) (hp : IsDouble p)
    (hpos : 0 < p) (hlt : p < 2 ^ 1024 - 2 ^ 970) :
    ∃ (m : ℕ) (q : ℤ) (hm : 0 < m), u = .finite .positive m q hm ∧ (m * 2 ^ q : ℚ) = p := by
  have hexact : ∀ {m : ℕ} {q : ℤ}, RoundsTo p m q → (m * 2 ^ q : ℚ) = p := by
    intro m q hround
    have hle := hround.abs_le hp
    rw [sub_self, abs_zero] at hle
    exact (sub_eq_zero.1 (abs_nonpos_iff.1 hle)).symm
  cases h with
  | zero h =>
    have hzero := hexact h
    rw [Nat.cast_zero, zero_mul] at hzero
    exact absurd hzero hpos.ne
  | finite hm h => exact ⟨_, _, hm, rfl, hexact h⟩
  | infinity h => exact absurd hlt h.not_gt

end Double

end ArrowCalc
