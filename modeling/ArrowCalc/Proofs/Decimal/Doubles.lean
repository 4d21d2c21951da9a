import ArrowCalc.Proofs.Decimal.Shortest

/-!
# The bit patterns of doubles

A number is a pattern of 64 bits: a sign, eleven bits of a biased exponent, 52 bits of a fraction.
`Decodes` says, from the pattern as a natural number, which number it stands for, and
`decodes_unpack` that this is how a `Float` is unpacked. From there on a `Float` is a sign and a
rational number, and its comparisons are those of rational numbers.

## Two descriptions of one format

The program takes a number apart by arithmetic on its pattern (`Binary.ofBits`), with divisions and
remainders by powers of two. The library defines a `Float` by a model that takes bit vectors apart.
Nothing connects the two but the format, and everything that is proved about the text of numbers
rests on their agreement. So this module is the only one that looks at bits. It gives the later ones
a significand and an exponent in canonical form, and the comparison of magnitudes as that of
rational numbers.

The constants are those of the format: `2 ^ 52` for the implicit bit, and `9218868437227405312`,
which is `2047 * 2 ^ 52`, for the pattern of infinity.

## Main results

* `decodes_unpack`: the value of a `Float` in terms of its bits.
* `le_abs_iff`, `abs_lt_iff`: comparing the magnitude of a number with a positive number.
* `compare_then_compare`: the order of canonical forms is that of the numbers.
-/

namespace ArrowCalc

namespace Double

open Float.Model (UnpackedFloat Format)
open Float.Model.UnpackedFloat

/-! ### The fields of a pattern

The three fields of the model, as numbers. Each is a slice of bits, and a slice is a quotient and a
remainder. -/

theorem toNat_unpackExponent (b : BitVec 64) :
    (@unpackExponent Format.binary64 b).toNat = b.toNat / 2 ^ 52 % 2 ^ 11 := by
  simp [unpackExponent, BitVec.extractLsb, BitVec.extractLsb', Nat.shiftRight_eq_div_pow]

theorem toNat_unpackMantissa (b : BitVec 64) :
    (@unpackMantissa Format.binary64 b).toNat = b.toNat % 2 ^ 52 := by
  simp [unpackMantissa, BitVec.extractLsb, BitVec.extractLsb']

/-- The sign that the leading bit gives. -/
def sign (bits : ℕ) : Sign := if bits % 2 ^ 63 = bits then .positive else .negative

theorem ofBitVec_unpackSign (b : BitVec 64) :
    Sign.ofBitVec (@unpackSign Format.binary64 b) = sign b.toNat := by
  have hlt : b.toNat < 2 ^ 64 := b.isLt
  have hsign : (@unpackSign Format.binary64 b).toNat = b.toNat / 2 ^ 63 % 2 := by
    delta unpackSign
    simp [BitVec.extractLsb, BitVec.extractLsb', Nat.shiftRight_eq_div_pow]
  have hzero : @unpackSign Format.binary64 b = 0#1 ↔ b.toNat % 2 ^ 63 = b.toNat := by
    rw [BitVec.toNat_eq, hsign]
    show b.toNat / 2 ^ 63 % 2 = 0 ↔ _
    omega
  simp only [Sign.ofBitVec, sign, hzero]

/-- What a pattern stands for. Without its sign the pattern orders the numbers: zero comes first,
then the finite numbers, infinity and what is not a number. -/
inductive Decodes (bits : ℕ) : UnpackedFloat → Prop
  | notANumber (h : 9218868437227405312 < bits % 2 ^ 63) : Decodes bits .notANumber
  | infinity (h : bits % 2 ^ 63 = 9218868437227405312) : Decodes bits (.infinity (sign bits))
  | zero (h : bits % 2 ^ 63 = 0) : Decodes bits (.zero (sign bits))
  | finite {m : ℕ} {q : ℤ} (hm : 0 < m) (hpos : 0 < bits % 2 ^ 63)
      (hlt : bits % 2 ^ 63 < 9218868437227405312)
      (hsignificand : (Binary.ofBits (bits % 2 ^ 63)).significand = m)
      (hexponent : (Binary.ofBits (bits % 2 ^ 63)).exponent = q) :
      Decodes bits (.finite (sign bits) m q hm)

theorem toNat_one_append (v : BitVec 52) : (1#1 ++ v).toNat = v.toNat + 2 ^ 52 := by
  rw [BitVec.toNat_append, ← Nat.shiftLeft_add_eq_or_of_lt v.isLt, Nat.add_comm]
  rfl

/-- The model unpacks a pattern to what it stands for. The cases are those of the model: the
exponent with all bits set, the exponent without any, and the others. -/
theorem decodes_unpack_bits (b : BitVec 64) : Decodes b.toNat (unpack Format.binary64 b) := by
  have hexp := toNat_unpackExponent b
  have hmant := toNat_unpackMantissa b
  have hlt : b.toNat < 2 ^ 64 := b.isLt
  have hbias : ((Format.binary64.exponentBias : ℕ) : ℤ) = 1023 := rfl
  have hwidth : ((Format.binary64.mantissaBitsWithoutImplicit : ℕ) : ℤ) = 52 := rfl
  delta unpack
  dsimp only
  rw [ofBitVec_unpackSign]
  by_cases htop : b.toNat / 2 ^ 52 % 2 ^ 11 = 2047
  · have htop' : @unpackExponent Format.binary64 b = -1#11 :=
      BitVec.eq_of_toNat_eq (by rw [hexp, htop]; rfl)
    rw [if_pos htop']
    by_cases hzero : b.toNat % 2 ^ 52 = 0
    · have hzero' : @unpackMantissa Format.binary64 b = 0#52 :=
        BitVec.eq_of_toNat_eq (by rw [hmant, hzero]; rfl)
      rw [if_pos hzero']
      exact .infinity (by omega)
    · have hzero' : @unpackMantissa Format.binary64 b ≠ 0#52 :=
        fun h => hzero (by rw [← hmant, h]; rfl)
      rw [if_neg hzero']
      exact .notANumber (by omega)
  · have htop' : @unpackExponent Format.binary64 b ≠ -1#11 :=
      fun h => htop (by rw [← hexp, h]; rfl)
    rw [if_neg htop']
    by_cases hlow : b.toNat / 2 ^ 52 % 2 ^ 11 = 0
    · have hlow' : @unpackExponent Format.binary64 b = 0#11 :=
        BitVec.eq_of_toNat_eq (by rw [hexp, hlow]; rfl)
      rw [if_pos hlow']
      by_cases hzero : b.toNat % 2 ^ 52 = 0
      · have hzero' : @unpackMantissa Format.binary64 b = 0#52 :=
          BitVec.eq_of_toNat_eq (by rw [hmant, hzero]; rfl)
        rw [dif_pos hzero']
        exact .zero (by omega)
      · have hzero' : @unpackMantissa Format.binary64 b ≠ 0#52 :=
          fun h => hzero (by rw [← hmant, h]; rfl)
        rw [dif_neg hzero']
        refine .finite _ (by omega) (by omega) ?_ ?_
        · rw [Binary.ofBits, if_pos (by omega)]
          show b.toNat % 2 ^ 63 % 4503599627370496 = _
          rw [hmant]
          omega
        · rw [Binary.ofBits, if_pos (by omega), hexp, hbias, hwidth, hlow]
          rfl
    · have hlow' : @unpackExponent Format.binary64 b ≠ 0#11 :=
        fun h => hlow (by rw [← hexp, h]; rfl)
      rw [if_neg hlow']
      -- a normal number has a leading bit that is not stored
      refine .finite _ (by omega) (by omega) ?_ ?_
      · rw [Binary.ofBits, if_neg (by omega), toNat_one_append, hmant]
        show b.toNat % 2 ^ 63 % 4503599627370496 + 4503599627370496 = _
        omega
      · rw [Binary.ofBits, if_neg (by omega), hexp, hbias, hwidth]
        show ((b.toNat % 2 ^ 63 / 4503599627370496 % 2048 : ℕ) : ℤ) - 1075 = _
        omega

/-- The value of a number, in terms of its bits. -/
theorem decodes_unpack (x : Float) : Decodes x.toBits.toNat x.toModel.unpack :=
  decodes_unpack_bits x.toBits.toBitVec

/-- The fields of a finite pattern other than zero are a double in canonical form. -/
theorem isDecoded_ofBits {bits : ℕ} (hpos : 0 < bits) (hlt : bits < 9218868437227405312) :
    (Binary.ofBits bits).IsDecoded := by
  rw [Binary.ofBits]
  split
  · next hlow =>
    refine ⟨⟨?_, ?_, le_rfl, fun h => absurd h (lt_irrefl _)⟩, ?_⟩
    · show 0 < bits % 4503599627370496
      omega
    · show bits % 4503599627370496 < 2 ^ 53
      omega
    · simp [IsNarrow]
  · next hlow =>
    refine ⟨⟨?_, ?_, ?_, fun _ => ?_⟩, ?_⟩
    · show 0 < bits % 4503599627370496 + 4503599627370496
      omega
    · show bits % 4503599627370496 + 4503599627370496 < 2 ^ 53
      omega
    · show (-1074 : ℤ) ≤ ((bits / 4503599627370496 % 2048 : ℕ) : ℤ) - 1075
      omega
    · show 2 ^ 52 ≤ bits % 4503599627370496 + 4503599627370496
      omega
    · show decide _ = true ↔ bits % 4503599627370496 + 4503599627370496 = 2 ^ 52 ∧
        (-1074 : ℤ) < ((bits / 4503599627370496 % 2048 : ℕ) : ℤ) - 1075
      rw [decide_eq_true_eq]
      omega

theorem exponent_ofBits_le {bits : ℕ} (hlt : bits < 9218868437227405312) :
    (Binary.ofBits bits).exponent ≤ 971 := by
  rw [Binary.ofBits]
  split
  · show (-1074 : ℤ) ≤ 971
    omega
  · show ((bits / 4503599627370496 % 2048 : ℕ) : ℤ) - 1075 ≤ 971
    omega

/-! ### The magnitude of a number

To take the magnitude of a number, the model unpacks it, drops the sign and packs it again. So
packing has to be undone by unpacking, for numbers in canonical form. -/

/-- The leading bit of a pattern, as a number. -/
def signBit : Sign → ℕ
  | .positive => 0
  | .negative => 2 ^ 63

theorem sign_add {bits : ℕ} (h : bits < 2 ^ 63) (s : Sign) : sign (signBit s + bits) = s := by
  cases s
  · exact if_neg (by rw [signBit]; omega)
  · exact if_pos (by rw [signBit]; omega)

theorem toNat_packComponents (s : Sign) (e : BitVec 11) (f : BitVec 52) :
    (packComponents Format.binary64 s e f).toNat = signBit s + (e.toNat * 2 ^ 52 + f.toNat) := by
  have hcomponents : (packComponents Format.binary64 s e f).toNat =
      (s.toBitVec.toNat * 2 ^ 11 + e.toNat) * 2 ^ 52 + f.toNat := by
    show (s.toBitVec ++ e ++ f).toNat = _
    rw [BitVec.toNat_append, BitVec.toNat_append, ← Nat.shiftLeft_add_eq_or_of_lt f.isLt,
      ← Nat.shiftLeft_add_eq_or_of_lt e.isLt, Nat.shiftLeft_eq, Nat.shiftLeft_eq]
  rw [hcomponents]
  cases s
  · show (1 * 2 ^ 11 + e.toNat) * 2 ^ 52 + f.toNat = 2 ^ 63 + _
    omega
  · show (0 * 2 ^ 11 + e.toNat) * 2 ^ 52 + f.toNat = 0 + _
    omega

/-- The pattern of a double in canonical form: only a normal significand has its leading bit left
out. -/
theorem toNat_pack {m : ℕ} {q : ℤ} (h : IsCanonical m q) (hq : q ≤ 971) (s : Sign) :
    (pack Format.binary64 (.finite s m q h.pos)).toNat =
      signBit s + if m < 2 ^ 52 then m else (q + 1074).toNat * 2 ^ 52 + m := by
  have hge := h.ge
  have hlt := h.lt
  have hpos := h.pos
  have hbits : Format.binary64.mantissaBits = 53 := rfl
  have hbias : (q + (Format.binary64.exponentBias : ℕ) +
      (Format.binary64.mantissaBitsWithoutImplicit : ℕ)).toNat = (q + 1075).toNat := by
    show (q + (1023 : ℕ) + (52 : ℕ)).toNat = (q + 1075).toNat
    omega
  delta pack
  dsimp only
  rw [hbias, hbits, if_neg (show ¬ 2048 ≤ (q + 1075).toNat + 1 by omega)]
  by_cases hsmall : m < 2 ^ 52
  · have hlog : m.log2 < 52 := (Nat.log2_lt (by omega)).2 hsmall
    rw [if_neg (by omega), if_pos hsmall, toNat_packComponents, BitVec.toNat_ofNat,
      BitVec.toNat_ofNat, Nat.mod_eq_of_lt hsmall]
    omega
  · have hlog : m.log2 = 52 := (Nat.log2_eq_iff (by omega)).2 ⟨by omega, hlt⟩
    rw [if_pos (by omega), if_neg hsmall, toNat_packComponents, BitVec.toNat_ofNat,
      BitVec.toNat_ofNat]
    omega

/-- The fields of the pattern of a double in canonical form, without its sign. -/
theorem ofBits_pattern {m : ℕ} {q : ℤ} (h : IsCanonical m q) (hq : q ≤ 971) {bits : ℕ}
    (hbits : bits = if m < 2 ^ 52 then m else (q + 1074).toNat * 2 ^ 52 + m) :
    0 < bits ∧ bits < 9218868437227405312 ∧ (Binary.ofBits bits).significand = m ∧
      (Binary.ofBits bits).exponent = q := by
  have hge := h.ge
  have hlt := h.lt
  have hpos := h.pos
  have hnormal := h.normal
  split at hbits
  · rw [Binary.ofBits, if_pos (by omega)]
    show _ ∧ _ ∧ bits % 4503599627370496 = m ∧ -1074 = q
    omega
  · rw [Binary.ofBits, if_neg (by omega)]
    show _ ∧ _ ∧ bits % 4503599627370496 + 4503599627370496 = m ∧
      ((bits / 4503599627370496 % 2048 : ℕ) : ℤ) - 1075 = q
    omega

/-- A double in canonical form survives being packed. Its pattern is known, and what a pattern
stands for is known too, so that no bit is looked at here. -/
theorem unpack_pack {m : ℕ} {q : ℤ} (h : IsCanonical m q) (hq : q ≤ 971) (s : Sign) :
    unpack Format.binary64 (pack Format.binary64 (.finite s m q h.pos)) = .finite s m q h.pos := by
  have hpattern := toNat_pack h hq s
  obtain ⟨hpos, hlt, hsignificand, hexponent⟩ := ofBits_pattern h hq rfl
  generalize (if m < 2 ^ 52 then m else (q + 1074).toNat * 2 ^ 52 + m) = bits at *
  have hmod : (signBit s + bits) % 2 ^ 63 = bits := by
    cases s <;> rw [signBit] <;> omega
  have hdecodes := decodes_unpack_bits (pack Format.binary64 (.finite s m q h.pos))
  generalize unpack Format.binary64 (pack Format.binary64 (.finite s m q h.pos)) = u at hdecodes
  rw [hpattern] at hdecodes
  cases hdecodes with
  | notANumber htop => omega
  | infinity htop => omega
  | zero hzero => omega
  | @finite m' q' hm _ _ hsignificand' hexponent' =>
    rw [hmod] at hsignificand' hexponent'
    obtain rfl : m' = m := hsignificand'.symm.trans hsignificand
    obtain rfl : q' = q := hexponent'.symm.trans hexponent
    rw [sign_add (by omega)]

/-- The sign, the significand and the exponent of a finite number other than zero. -/
theorem isCanonical_of_unpack_eq {x : Float} {s : Sign} {m : ℕ} {q : ℤ} {hm : 0 < m}
    (hx : x.toModel.unpack = .finite s m q hm) : IsCanonical m q ∧ q ≤ 971 := by
  have hdecodes := decodes_unpack x
  rw [hx] at hdecodes
  cases hdecodes with
  | finite _ hpos hlt hsignificand hexponent =>
    have hcanonical := (isDecoded_ofBits hpos hlt).canonical
    have hle := exponent_ofBits_le hlt
    rw [hsignificand, hexponent] at hcanonical
    rw [hexponent] at hle
    exact ⟨hcanonical, hle⟩

/-- The magnitude has the same significand and exponent. -/
theorem unpack_abs {x : Float} {s : Sign} {m : ℕ} {q : ℤ} {hm : 0 < m}
    (hx : x.toModel.unpack = .finite s m q hm) :
    x.abs.toModel.unpack = .finite .positive m q hm := by
  obtain ⟨hcanonical, hq⟩ := isCanonical_of_unpack_eq hx
  have habs : x.toModel.unpack.abs = .finite .positive m q hm := by rw [hx]; rfl
  show unpack Format.binary64 (pack Format.binary64 x.toModel.unpack.abs) = _
  rw [habs]
  exact unpack_pack hcanonical hq _

theorem unpack_neg {x : Float} {s : Sign} {m : ℕ} {q : ℤ} {hm : 0 < m}
    (hx : x.toModel.unpack = .finite s m q hm) :
    (-x).toModel.unpack = .finite (-s) m q hm := by
  obtain ⟨hcanonical, hq⟩ := isCanonical_of_unpack_eq hx
  have hneg : x.toModel.unpack.neg = .finite (-s) m q hm := by rw [hx]; rfl
  show unpack Format.binary64 (pack Format.binary64 x.toModel.unpack.neg) = _
  rw [hneg]
  exact unpack_pack hcanonical hq _

/-! ### Comparisons

The model compares signs, then exponents, then significands. -/

theorem le_iff_compare (x y : Float) :
    x ≤ y ↔ (x.toModel.unpack.compare y.toModel.unpack).any (·.isLE) = true := by
  show decide (x.toModel ≤ y.toModel) = true ↔ _
  rw [decide_eq_true_eq]
  rfl

theorem lt_iff_compare (x y : Float) :
    x < y ↔ x.toModel.unpack.compare y.toModel.unpack = some .lt := by
  show decide (x.toModel < y.toModel) = true ↔ _
  rw [decide_eq_true_eq, ← beq_iff_eq]
  rfl

theorem beq_iff_compare (x y : Float) :
    (x == y) = true ↔ x.toModel.unpack.compare y.toModel.unpack = some .eq := by
  rw [← beq_iff_eq (b := some Ordering.eq)]
  rfl

/-- Significands are compared only where the exponents agree, which for canonical forms is the order
of the numbers. -/
theorem compare_then_compare {m₁ m₂ : ℕ} {q₁ q₂ : ℤ} (h₁ : IsCanonical m₁ q₁)
    (h₂ : IsCanonical m₂ q₂) :
    (compare q₁ q₂).then (compare m₁ m₂) = compare (m₁ * 2 ^ q₁ : ℚ) (m₂ * 2 ^ q₂) := by
  rcases lt_trichotomy q₁ q₂ with hlt | rfl | hgt
  · rw [compare_lt_iff_lt.2 hlt, compare_lt_iff_lt.2 (h₁.lt_of_exponent_lt h₂ hlt)]
    rfl
  · have hpow : (0 : ℚ) < 2 ^ q₁ := by positivity
    rw [compare_eq_iff_eq.2 rfl]
    show compare m₁ m₂ = _
    rcases lt_trichotomy m₁ m₂ with hlt | rfl | hgt
    · rw [compare_lt_iff_lt.2 hlt, compare_lt_iff_lt.2]
      have : (m₁ : ℚ) < m₂ := by exact_mod_cast hlt
      gcongr
    · rw [compare_eq_iff_eq.2 rfl, compare_eq_iff_eq.2 rfl]
    · rw [compare_gt_iff_gt.2 hgt, compare_gt_iff_gt.2]
      have : (m₂ : ℚ) < m₁ := by exact_mod_cast hgt
      gcongr
  · rw [compare_gt_iff_gt.2 hgt, compare_gt_iff_gt.2 (h₂.lt_of_exponent_lt h₁ hgt)]
    rfl

section Magnitude

variable {x y : Float} {s : Sign} {m n : ℕ} {q r : ℤ} {hm : 0 < m} {hn : 0 < n}

/-- Comparing a positive number with the magnitude of another. -/
theorem compare_abs (hx : x.toModel.unpack = .finite s m q hm)
    (hy : y.toModel.unpack = .finite .positive n r hn) :
    y.toModel.unpack.compare x.abs.toModel.unpack =
      some (compare (n * 2 ^ r : ℚ) (m * 2 ^ q)) := by
  rw [hy, unpack_abs hx,
    ← compare_then_compare (isCanonical_of_unpack_eq hy).1 (isCanonical_of_unpack_eq hx).1]
  rfl

/-- A positive number is at most the magnitude of another one as rational numbers are. -/
theorem le_abs_iff (hx : x.toModel.unpack = .finite s m q hm)
    (hy : y.toModel.unpack = .finite .positive n r hn) :
    y ≤ x.abs ↔ (n * 2 ^ r : ℚ) ≤ m * 2 ^ q := by
  rw [le_iff_compare, compare_abs hx hy, Option.any_some, ← compare_le_iff_le,
    Ordering.isLE_iff_ne_gt]

theorem abs_lt_iff (hx : x.toModel.unpack = .finite s m q hm)
    (hy : y.toModel.unpack = .finite .positive n r hn) :
    x.abs < y ↔ (m * 2 ^ q : ℚ) < n * 2 ^ r := by
  rw [lt_iff_compare, hy, unpack_abs hx, ← compare_lt_iff_lt,
    ← compare_then_compare (isCanonical_of_unpack_eq hx).1 (isCanonical_of_unpack_eq hy).1]
  exact Option.some_inj

end Magnitude

end Double

end ArrowCalc
