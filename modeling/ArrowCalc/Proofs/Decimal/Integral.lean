import ArrowCalc.Proofs.Decimal.Arithmetic
import ArrowCalc.Proofs.Numbers
import Mathlib.Tactic.IntervalCases

/-!
# The text of an integral number

The text of a double is a layout of its shortest decimal. For an integer up to `2 ^ 53` this is the
integer itself in decimal digits, although the search for the shortest decimal knows nothing of
integers: no decimal with fewer digits is near enough, because the doubles next to the integer are
at most one away below and two above.

The bound is the largest one: `2 ^ 53 + 1` is no double, and reads back as `2 ^ 53`. There the
integer wins because it is the nearest of the decimals with its number of digits.

## Main results

* `digits_ofDigits`: digits without a leading zero are those of the number that they write.
* `IsShortest.pointed_eq`: the shortest decimal of an integer is exact.
* `text_ofNat`, `text_neg_ofNat`: the text of an integer and of its negative.
-/

namespace ArrowCalc

open Decimal

/-! ### Digits

The search gives digits, and the text of the integer is made from the integer. -/

theorem Decimal.exists_ofNat_eq {c : Char} (hc : c.isDigit = true) :
    ∃ k, 48 ≤ k ∧ k ≤ 57 ∧ Char.ofNat k = c := by
  have hrange : 48 ≤ c.toNat ∧ c.toNat ≤ 57 := Char.isDigit_iff_toNat.1 hc
  exact ⟨c.toNat, hrange.1, hrange.2, Char.ofNat_toNat c⟩

theorem Decimal.digitChar_digitValue {c : Char} (hc : c.isDigit = true) :
    (digitValue c).digitChar = c := by
  obtain ⟨k, hlow, hhigh, rfl⟩ := exists_ofNat_eq hc
  interval_cases k <;> rfl

/-- Digits without a leading zero are those of the number that they write. -/
theorem Decimal.digits_ofDigits {ds : List Char} (hne : ds ≠ [])
    (hall : ds.all Char.isDigit = true) (hhead : ds.head? ≠ some '0') :
    digits (ofDigits 10 ds) = ds := by
  induction ds using List.reverseRecOn with
  | nil => exact absurd rfl hne
  | append_singleton ds c ih =>
    rw [List.all_append, Bool.and_eq_true, List.all_cons, List.all_nil, Bool.and_true] at hall
    have hlt := digitValue_lt hall.2
    rw [ofDigits_concat, digits]
    cases ds with
    | nil =>
      rw [ofDigits_nil, Nat.mul_zero, Nat.zero_add, Nat.toDigits_of_lt_base hlt,
        digitChar_digitValue hall.2]
      rfl
    | cons d ds =>
      have hd : d ≠ '0' := fun h => hhead (by rw [h]; rfl)
      have hd' := hall.1
      rw [List.all_cons, Bool.and_eq_true] at hd'
      have hpos : 0 < ofDigits 10 (d :: ds) :=
        Nat.lt_of_lt_of_le (by positivity) (le_ofDigits_cons ds hd'.1 hd)
      have hinit := ih (List.cons_ne_nil _ _) hall.1 fun h => hd (Option.some_inj.1 h)
      rw [← Nat.toDigits_append_toDigits (by norm_num) hpos hlt, Nat.toDigits_of_lt_base hlt,
        digitChar_digitValue hall.2]
      exact congrArg (· ++ [c]) hinit

namespace Number

open Double
open Float.Model (UnpackedFloat)
open Float.Model.UnpackedFloat (Sign)

/-! ### What reads back as an integer

The zeros at the end of an integer are not among the digits of its decimal, as the place of the
point makes up for them. So the integer is compared by its digits without these zeros. -/

theorem le_ofDigits_stripped {n : ℕ} (hpos : 0 < n) :
    10 ^ (stripped (digits n)).length ≤ 10 * ofDigits 10 (stripped (digits n)) := by
  obtain ⟨hne, hall, hhead⟩ := stripped_digits hpos
  obtain ⟨d, rest, hcons⟩ := List.exists_cons_of_ne_nil hne
  rw [hcons] at hall hhead ⊢
  rw [List.all_cons, Bool.and_eq_true] at hall
  rw [List.length_cons, pow_succ']
  exact Nat.mul_le_mul_left 10 (le_ofDigits_cons rest hall.1 fun h => hhead (by rw [h]; rfl))

/-- Fewer digits write less. -/
theorem ofDigits_lt_stripped {n : ℕ} {ds : List Char} (hpos : 0 < n)
    (hall : ds.all Char.isDigit = true) (hshort : ds.length < (stripped (digits n)).length) :
    ofDigits 10 ds < ofDigits 10 (stripped (digits n)) := by
  have hpow : 10 ^ (ds.length + 1) ≤ 10 ^ (stripped (digits n)).length :=
    Nat.pow_le_pow_right (by norm_num) hshort
  have hlow := le_ofDigits_stripped hpos
  have hlt := ofDigits_lt hall
  rw [pow_succ] at hpow
  omega

theorem ofDigits_stripped_le (n : ℕ) : ofDigits 10 (stripped (digits n)) ≤ n := by
  obtain ⟨z, -, hz⟩ := exists_ofDigits_stripped n
  exact (Nat.le_mul_of_pos_right _ (by positivity)).trans hz.le

/-- Digits that write an integer, perhaps with zeros behind them, are no fewer than those of the
integer without its zeros at the end. -/
theorem length_stripped_le {n : ℕ} {ds : List Char} {e : ℕ} (hpos : 0 < n)
    (hall : ds.all Char.isDigit = true) (h : ofDigits 10 ds * 10 ^ e = n) :
    (stripped (digits n)).length ≤ ds.length := by
  obtain ⟨z, -, hz⟩ := exists_ofDigits_stripped n
  obtain ⟨hne, hall', -⟩ := stripped_digits hpos
  have hmod := ofDigits_mod_ten_ne_zero hne hall' (getLast?_stripped _)
  refine Nat.le_of_not_lt fun hshort => ?_
  have hlt := ofDigits_lt_stripped hpos hall hshort
  generalize ofDigits 10 (stripped (digits n)) = r at hz hmod hlt
  have hle : r ≤ ofDigits 10 ds := by
    rcases Nat.lt_or_ge z e with hze | hez
    · -- then the last digit of `r` is zero
      obtain ⟨k, rfl⟩ : ∃ k, e = z + (k + 1) := ⟨e - z - 1, by omega⟩
      rw [← hz, pow_add, pow_succ, mul_comm (10 ^ z), ← mul_assoc, ← mul_assoc] at h
      have hr := Nat.mul_right_cancel (by positivity) h
      exact absurd (by rw [← hr, Nat.mul_mod_left]) hmod
    · obtain ⟨k, rfl⟩ : ∃ k, z = e + k := ⟨z - e, by omega⟩
      rw [← hz, pow_add, mul_comm (10 ^ e), ← mul_assoc] at h
      rw [Nat.mul_right_cancel (by positivity) h]
      exact Nat.le_mul_of_pos_right r (by positivity)
  omega

/-- The integer behind `2 ^ 53` has as many digits, and does not end with a zero. -/
theorem length_stripped_two_pow_le {ds : List Char} {e : ℕ} (hall : ds.all Char.isDigit = true)
    (h : ofDigits 10 ds * 10 ^ e = 2 ^ 53 + 1) :
    (stripped (digits (2 ^ 53))).length ≤ ds.length := by
  cases e with
  | succ e =>
    rw [pow_succ, ← mul_assoc] at h
    omega
  | zero =>
    rw [pow_zero, mul_one] at h
    refine Nat.le_of_not_lt fun hshort => ?_
    have hlt := ofDigits_lt_stripped (by norm_num) hall hshort
    have hle := ofDigits_stripped_le (2 ^ 53)
    omega

section Integral

variable {m n : ℕ} {q : ℤ} (c : IsCanonical m q) (hvalue : (m * 2 ^ q : ℚ) = n)

include c hvalue

/-- The double `2 ^ 53` is written with the significand `2 ^ 52`. -/
theorem eq_of_value_two_pow (hn : n = 2 ^ 53) : m = 2 ^ 52 ∧ q = 1 := by
  have htop : IsCanonical (2 ^ 52) 1 :=
    ⟨by norm_num, by norm_num, by norm_num, fun _ => le_rfl⟩
  refine c.eq_of_value_eq htop (hvalue.trans ?_)
  rw [hn]
  norm_num

theorem exponent_nonpos (hn : n < 2 ^ 53) : q ≤ 0 := by
  by_contra hq
  have hlead : (2 ^ 52 : ℚ) ≤ m := by exact_mod_cast c.normal (by omega)
  have hpow : (2 : ℚ) ^ (1 : ℤ) ≤ 2 ^ q := zpow_le_zpow_right₀ (by norm_num) (by omega)
  have hle : (2 ^ 52 * 2 ^ (1 : ℤ) : ℚ) ≤ m * 2 ^ q := by gcongr
  rw [hvalue] at hle
  norm_num at hle
  omega

/-- What reads back as an integer is not far from it. -/
theorem near_of_roundsTo {p : ℚ} (h : RoundsTo p m q) (hn : n ≤ 2 ^ 53) :
    n - 1 / 2 ≤ p ∧ p ≤ n + 1 ∧ (n < 2 ^ 53 → p ≤ n + 1 / 2) := by
  obtain ⟨hlow, hhigh⟩ := ((roundsTo_iff c).1 h).le
  rw [hvalue] at hlow hhigh
  rcases hn.lt_or_eq with hlt | heq
  · have hpow : (2 : ℚ) ^ q ≤ 1 :=
      zpow_le_one_of_nonpos₀ (by norm_num) (exponent_nonpos c hvalue hlt)
    have hgap : gapBelow m q ≤ 2 ^ q := by
      unfold gapBelow
      split
      · have : (0 : ℚ) < 2 ^ q := by positivity
        linarith
      · exact le_rfl
    exact ⟨by linarith, by linarith, fun _ => by linarith⟩
  · obtain ⟨rfl, rfl⟩ := eq_of_value_two_pow c hvalue heq
    have hgap : gapBelow (2 ^ 52) 1 = 1 := by
      rw [gapBelow, if_pos (by decide)]
      norm_num
    rw [hgap] at hlow
    norm_num at hhigh
    exact ⟨hlow, hhigh, fun hlt => absurd heq hlt.ne⟩

/-- A decimal without digits behind the point reads back as an integer only if it is the integer,
or the one behind `2 ^ 53`. -/
theorem eq_of_roundsTo {k : ℕ} (h : RoundsTo k m q) (hn : n ≤ 2 ^ 53) :
    k = n ∨ (n = 2 ^ 53 ∧ k = 2 ^ 53 + 1) := by
  obtain ⟨hlow, hhigh, hhalf⟩ := near_of_roundsTo c hvalue h hn
  have hle : k ≤ n + 1 := by exact_mod_cast hhigh
  have hge : n ≤ k := by
    by_contra hlt
    have hcast : (k + 1 : ℚ) ≤ n := by exact_mod_cast Nat.lt_of_not_le hlt
    linarith
  rcases hn.lt_or_eq with hlt | heq
  · have hnot : k ≠ n + 1 := by
      intro hsucc
      have hcast : (k : ℚ) = n + 1 := by exact_mod_cast hsucc
      linarith [hhalf hlt]
    omega
  · omega

/-- No decimal with fewer digits than an integer reads back as it. -/
theorem length_le_of_roundsTo {ds : List Char} {place : ℤ} (hall : ds.all Char.isDigit = true)
    (h : RoundsTo (pointed ds place) m q) (hpos : 0 < n) (hn : n ≤ 2 ^ 53) :
    (stripped (digits n)).length ≤ ds.length := by
  rw [pointed] at h
  rcases lt_or_ge (place - ds.length) 0 with hneg | hnonneg
  · -- a decimal with digits behind the point has too few in front of it
    by_contra hshort
    have hcast : (ofDigits 10 ds : ℚ) ≤ n := by
      have hdigits := ofDigits_lt_stripped hpos hall (Nat.lt_of_not_le hshort)
      exact_mod_cast hdigits.le.trans (ofDigits_stripped_le n)
    have htenth : (10 : ℚ) ^ (place - ds.length) ≤ 10 ^ (-1 : ℤ) :=
      zpow_le_zpow_right₀ (by norm_num) (by omega)
    have hsmall : (ofDigits 10 ds * 10 ^ (place - ds.length) : ℚ) ≤ n * 10 ^ (-1 : ℤ) := by gcongr
    have hone : (1 : ℚ) ≤ n := by exact_mod_cast hpos
    have hnear := (near_of_roundsTo c hvalue h hn).1
    norm_num at hsmall
    linarith
  · obtain ⟨e, he⟩ := Int.eq_ofNat_of_zero_le hnonneg
    have hcast :
        (ofDigits 10 ds * 10 ^ (place - ds.length) : ℚ) = (ofDigits 10 ds * 10 ^ e : ℕ) := by
      rw [he]
      push_cast
      rfl
    rw [hcast] at h
    rcases eq_of_roundsTo c hvalue h hn with heq | ⟨rfl, heq⟩
    · exact length_stripped_le hpos hall heq
    · exact length_stripped_two_pow_le hall heq

/-- The shortest decimal of an integer is exact. -/
theorem IsShortest.pointed_eq {ds : List Char} {place : ℤ} (h : IsShortest m q ds place)
    (hpos : 0 < n) (hn : n ≤ 2 ^ 53) : pointed ds place = n := by
  have hexact : pointed (stripped (digits n)) (digits n).length = n := by
    have hstripped := pointed_stripped ⟨n, 0⟩
    rwa [zero_add, zpow_zero, mul_one] at hstripped
  have hrounds : RoundsTo (pointed (stripped (digits n)) (digits n).length) m q := by
    rw [hexact, ← hvalue]
    exact (roundsTo_iff c).2 (inInterval_self m q)
  obtain ⟨hne, hall, hhead⟩ := stripped_digits hpos
  have hle := h.least _ _ hall hrounds
  rcases hle.lt_or_eq with hlt | heq
  · exact absurd hlt (Nat.not_lt.2 (length_le_of_roundsTo c hvalue h.all_digits h.rounds hpos hn))
  · have hnear := h.nearest _ _ hall hrounds heq.symm
    rw [hexact, hvalue, sub_self, abs_zero] at hnear
    exact sub_eq_zero.1 (abs_nonpos_iff.1 hnear)

/-- The shortest decimal of an integer has no digits behind the point. -/
theorem IsShortest.exists_place {ds : List Char} {place : ℤ} (h : IsShortest m q ds place)
    (hpos : 0 < n) (hn : n ≤ 2 ^ 53) :
    ∃ z : ℕ, place = ds.length + z ∧ place ≤ 21 ∧ ofDigits 10 ds * 10 ^ z = n := by
  have hexact := h.pointed_eq c hvalue hpos hn
  have hmod := ofDigits_mod_ten_ne_zero h.ne_nil h.all_digits h.last_ne
  have hle : place ≤ 21 := by
    by_contra hlarge
    have hpow : (10 : ℚ) ^ (21 : ℤ) ≤ 10 ^ (place - 1) :=
      zpow_le_zpow_right₀ (by norm_num) (by omega)
    have hcast : (n : ℚ) < 10 ^ (21 : ℤ) := by exact_mod_cast hn.trans_lt (by norm_num)
    have hlow := h.le_pointed
    rw [hexact] at hlow
    linarith
  rw [pointed] at hexact
  rcases lt_or_ge place ds.length with hneg | hnonneg
  · -- else the last digit is zero
    obtain ⟨k, hk⟩ : ∃ k : ℕ, place - ds.length = -((k + 1 : ℕ) : ℤ) :=
      ⟨(ds.length - place - 1).toNat, by omega⟩
    rw [hk, zpow_neg, zpow_natCast, ← div_eq_mul_inv, div_eq_iff (by positivity)] at hexact
    have hdigits : ofDigits 10 ds = n * 10 ^ (k + 1) := by exact_mod_cast hexact
    rw [hdigits, pow_succ, ← mul_assoc, Nat.mul_mod_left] at hmod
    exact absurd rfl hmod
  · obtain ⟨z, hz⟩ : ∃ z : ℕ, place = ds.length + z := ⟨(place - ds.length).toNat, by omega⟩
    rw [hz, add_sub_cancel_left, zpow_natCast] at hexact
    exact ⟨z, hz, hle, by exact_mod_cast hexact⟩

/-- The layout of the shortest decimal of an integer is the integer. -/
theorem Layout.eq_digits {ds body : List Char} {place : ℤ} (hlayout : Layout ds place body)
    (h : IsShortest m q ds place) (hpos : 0 < n) (hn : n ≤ 2 ^ 53) : body = digits n := by
  obtain ⟨z, hplace, hle, hdigits⟩ := h.exists_place c hvalue hpos hn
  have hlength : 0 < ds.length := List.length_pos_iff.2 h.ne_nil
  cases hlayout with
  | integer z' hplace' _ =>
    obtain rfl : z' = z := by omega
    have hall : (ds ++ List.replicate z' '0').all Char.isDigit = true := by
      rw [List.all_append, h.all_digits, all_replicate_zero]
      rfl
    have hhead : (ds ++ List.replicate z' '0').head? ≠ some '0' := by
      rw [List.head?_append_of_ne_nil _ h.ne_nil]
      exact h.head_ne
    have hvalue' : ofDigits 10 (ds ++ List.replicate z' '0') = n := by
      rw [ofDigits_append, ofDigits_replicate_zero, List.length_replicate, Nat.add_zero, hdigits]
    rw [← hvalue', digits_ofDigits (List.append_ne_nil_of_left_ne_nil h.ne_nil _) hall hhead]
  | point whole fraction hds hplace' _ hfraction _ =>
    have := List.length_pos_iff.2 hfraction
    rw [hds, List.length_append] at hplace
    omega
  | fraction z' hplace' _ => omega
  | oneDigit d hds hplace' => omega
  | scientific d rest hds hrest hplace' => omega

/-- The text of an integral number. -/
theorem text_of_value {x : Float} {s : Sign} {hm : 0 < m}
    (hx : x.toModel.unpack = .finite s m q hm) (hpos : 0 < n) (hn : n ≤ 2 ^ 53) :
    text x = signText s ++ n.repr := by
  obtain ⟨s', u, hunsigned, htext⟩ := unsigned_text x fun h => by rw [hx] at h; cases h
  rw [hx] at hunsigned
  cases hunsigned with
  | finite _ shortest layout =>
    rw [htext, layout.eq_digits c hvalue shortest hpos hn, Nat.repr_eq_ofList_toDigits]
    rfl

end Integral

/-! ### Integers and their negatives

Zero has no shortest decimal and is a case of its own. Its negative is the same integer, but another
double with the same text. -/

theorem text_ofNat {n : ℕ} (hn : n ≤ 2 ^ 53) : text (Float.ofNat n) = n.repr := by
  rcases Nat.eq_zero_or_pos n with rfl | hpos
  · exact text_of_beq_zero rfl
  · obtain ⟨m, q, hm, hunpack, hvalue⟩ := unpack_ofNat hpos hn
    have htext := text_of_value (isCanonical_of_unpack_eq hunpack).1 hvalue hunpack hpos hn
    rwa [signText, String.empty_append] at htext

theorem text_neg_ofNat {n : ℕ} (hn : n ≤ 2 ^ 53) : text (-Float.ofNat n) = (-(n : ℤ)).repr := by
  rcases Nat.eq_zero_or_pos n with rfl | hpos
  · exact text_of_beq_zero rfl
  · obtain ⟨m, q, hm, hunpack, hvalue⟩ := unpack_ofNat hpos hn
    have htext := text_of_value (isCanonical_of_unpack_eq hunpack).1 hvalue (unpack_neg hunpack)
      hpos hn
    rw [htext, Int.repr_eq_if, if_neg (by omega), Int.neg_neg, Int.toNat_natCast]
    rfl

end Number

end ArrowCalc
