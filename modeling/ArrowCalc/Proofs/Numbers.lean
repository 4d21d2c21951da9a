import ArrowCalc.Proofs.Decimal.Doubles
import ArrowCalc.Proofs.Decimal.Layout

/-!
# The text of a number

The text of a finite number other than zero is a sign and a layout of its shortest decimal: the
digits are the fewest that read back as the number, and of those the nearest to it. The place of the
point alone decides the layout. It is shown here that this is the same as comparing the number with
`1e21` and `1e-6`, although neither the digits nor the place appear in those comparisons and
`10 ^ -6` is no double.

## What the specification is

`IsShortest` is stated for arbitrary digits and places, with the rounding of rational numbers to
doubles as the only notion from elsewhere. It does not mention the search. A decimal is shortest if
it rounds to the double, if no decimal with fewer digits does, and if none with as many is nearer.
Zeros at the ends of the digits are excluded, so that the number of digits means what it says.

The search works with a coefficient and an exponent. Its coefficient may end with zeros, which are
stripped, and it may even be a power of ten with one digit more than the bound for its grid. That
the stripped digits are within the bound is the one place where the two notions do not simply
translate (`length_le_of_ofDigits_le`).

## Places and comparisons

A number with its point at place `n` lies between `10 ^ (n - 1)` and `10 ^ n`. That is true of the
decimal, and the double is only what the decimal rounds to. At the two bounds the double and the
decimal could lie on different sides of the power of ten. They do not: rounding is monotone, and a
double to which a power of ten rounds has this power, or something nearer, as its shortest decimal
(`IsShortest.near_ten_zpow`).

## Main results

* `IsShortest.place_gt_iff`, `IsShortest.place_le_iff`: what the comparisons say of the place.
* `text_layout`: the text of every number; numbers with the same text are equal.
-/

namespace ArrowCalc

namespace Number

open Decimal Double
open Float.Model (UnpackedFloat)
open Float.Model.UnpackedFloat (Sign)

/-! ### Shortest digits -/

/-- The number `0.d₁…dₖ * 10 ^ n` is a shortest decimal of the double `m * 2 ^ q`. -/
structure IsShortest (m : ℕ) (q : ℤ) (ds : List Char) (n : ℤ) : Prop where
  ne_nil : ds ≠ []
  all_digits : ds.all Char.isDigit = true
  head_ne : ds.head? ≠ some '0'
  last_ne : ds.getLast? ≠ some '0'
  /-- It reads back as the double. -/
  rounds : RoundsTo (pointed ds n) m q
  /-- No decimal with fewer digits does. -/
  least : ∀ (ds' : List Char) (n' : ℤ), ds'.all Char.isDigit = true →
    RoundsTo (pointed ds' n') m q → ds.length ≤ ds'.length
  /-- No decimal with as many digits that does is nearer. -/
  nearest : ∀ (ds' : List Char) (n' : ℤ), ds'.all Char.isDigit = true →
    RoundsTo (pointed ds' n') m q → ds'.length = ds.length →
      |pointed ds n - m * 2 ^ q| ≤ |pointed ds' n' - m * 2 ^ q|

/-- Digits without the zeros at their end. -/
def stripped (ds : List Char) : List Char := (ds.reverse.dropWhile (· = '0')).reverse

theorem exists_eq_stripped_append (ds : List Char) :
    ∃ z, ds = stripped ds ++ List.replicate z '0' := by
  refine ⟨(ds.reverse.takeWhile (· = '0')).length, ?_⟩
  have hzeros : ds.reverse.takeWhile (· = '0') =
      List.replicate (ds.reverse.takeWhile (· = '0')).length '0' :=
    List.eq_replicate_of_mem fun c hc =>
      of_decide_eq_true (List.all_eq_true.1 List.all_takeWhile c hc)
  have hsplit := congrArg List.reverse
    (List.takeWhile_append_dropWhile (p := (· = '0')) (l := ds.reverse))
  rw [List.reverse_append, List.reverse_reverse, hzeros, List.reverse_replicate] at hsplit
  exact hsplit.symm

/-- The zeros that are left out of a number's digits are a factor of it. -/
theorem exists_ofDigits_stripped (c : ℕ) :
    ∃ z, digits c = stripped (digits c) ++ List.replicate z '0' ∧
      ofDigits 10 (stripped (digits c)) * 10 ^ z = c := by
  obtain ⟨z, hz⟩ := exists_eq_stripped_append (digits c)
  have heq : ofDigits 10 (digits c) = c := ofDigits_toDigits c
  rw [hz, ofDigits_append, ofDigits_replicate_zero, List.length_replicate, Nat.add_zero] at heq
  exact ⟨z, hz, heq⟩

/-- Stripped digits do not end with a zero. -/
theorem getLast?_stripped (ds : List Char) : (stripped ds).getLast? ≠ some '0' := by
  intro h
  rw [stripped, List.getLast?_reverse] at h
  have hnot := List.head?_dropWhile_not (fun c => decide (c = '0')) ds.reverse
  rw [h] at hnot
  exact absurd hnot (by decide)

/-- The last digit of a number is its remainder by ten. -/
theorem ofDigits_mod_ten_ne_zero {ds : List Char} (hne : ds ≠ [])
    (hall : ds.all Char.isDigit = true) (hlast : ds.getLast? ≠ some '0') :
    ofDigits 10 ds % 10 ≠ 0 := by
  obtain ⟨init, c, rfl⟩ := (List.eq_nil_or_concat' ds).resolve_left hne
  rw [List.all_append, Bool.and_eq_true, List.all_cons, List.all_nil, Bool.and_true] at hall
  have hc : c ≠ '0' := fun h => hlast (by rw [List.getLast?_concat, h])
  have hpos := digitValue_pos hall.2 hc
  have hlt := digitValue_lt hall.2
  rw [ofDigits_concat]
  omega

section Shortest

variable {x : Binary}

theorem coefficient_shortest_pos (h : x.IsDecoded) : 0 < x.shortest.coefficient := by
  obtain ⟨j, -, hrounds, -⟩ := h.exists_shortest
  by_contra hzero
  have hlt : x.shortest.coefficient < 10 ^ 0 := by
    rw [pow_zero]
    omega
  exact absurd (h.exists_rounds_of_lt hlt hrounds).1 (lt_irrefl 0)

/-- The decimal that the search finds is written by its stripped digits. -/
theorem pointed_stripped (d : Decimal) :
    pointed (stripped (digits d.coefficient)) (d.exponent + (digits d.coefficient).length) =
      d.coefficient * 10 ^ d.exponent := by
  obtain ⟨z, hz, hcoefficient⟩ := exists_ofDigits_stripped d.coefficient
  have hlength := congrArg List.length hz
  rw [List.length_append, List.length_replicate] at hlength
  have hplace : d.exponent + (digits d.coefficient).length -
      (stripped (digits d.coefficient)).length = (z : ℤ) + d.exponent := by omega
  have hcast : (ofDigits 10 (stripped (digits d.coefficient)) * 10 ^ z : ℚ) = d.coefficient := by
    exact_mod_cast hcoefficient
  rw [pointed, hplace, zpow_add₀ (by norm_num), zpow_natCast, ← mul_assoc, hcast]

/-- Stripping leaves something of a number other than zero, and does not touch its first digit. -/
theorem stripped_digits {c : ℕ} (hc : 0 < c) :
    stripped (digits c) ≠ [] ∧ (stripped (digits c)).all Char.isDigit = true ∧
      (stripped (digits c)).head? ≠ some '0' := by
  obtain ⟨z, hz, hvalue⟩ := exists_ofDigits_stripped c
  have hne : stripped (digits c) ≠ [] := by
    intro hnil
    rw [hnil, ofDigits_nil, Nat.zero_mul] at hvalue
    omega
  have hall : (digits c).all Char.isDigit = true :=
    List.all_eq_true.2 fun d hd => Nat.isDigit_of_mem_toDigits (by norm_num) le_rfl hd
  refine ⟨hne, ?_, ?_⟩
  · rw [hz, List.all_append, Bool.and_eq_true] at hall
    exact hall.1
  · obtain ⟨d, rest, hd⟩ := List.exists_cons_of_ne_nil hne
    obtain ⟨d', rest', hdigits, -, hhead⟩ := exists_toDigits_cons c
    have hcons : d' :: rest' = d :: (rest ++ List.replicate z '0') := by
      rw [← hdigits, ← List.cons_append, ← hd]
      exact hz
    rw [hd]
    intro h
    exact hhead hc (by rw [List.head_eq_of_cons_eq hcons]; exact Option.some_inj.1 h)

/-- Stripped digits are no more than the power of ten that bounds the number has zeros. -/
theorem length_le_of_ofDigits_le {ds : List Char} {k : ℕ} (hne : ds ≠ [])
    (hall : ds.all Char.isDigit = true) (hhead : ds.head? ≠ some '0')
    (hlast : ds.getLast? ≠ some '0') (hk : 0 < k) (hle : ofDigits 10 ds ≤ 10 ^ k) :
    ds.length ≤ k := by
  have hmod := ofDigits_mod_ten_ne_zero hne hall hlast
  obtain ⟨d, rest, rfl⟩ := List.exists_cons_of_ne_nil hne
  rw [List.all_cons, Bool.and_eq_true] at hall
  have hlow := le_ofDigits_cons rest hall.1 fun h => hhead (by rw [h]; rfl)
  have hrest : rest.length ≤ k :=
    (Nat.pow_le_pow_iff_right (by norm_num)).1 (hlow.trans hle)
  rw [List.length_cons]
  -- The power of ten itself is ruled out by its last digit.
  rcases Nat.lt_or_ge rest.length k with hlt | hge
  · exact hlt
  · have hpow : ofDigits 10 (d :: rest) = 10 ^ k :=
      le_antisymm hle (by rwa [show rest.length = k by omega] at hlow)
    obtain ⟨k', rfl⟩ : ∃ k', k = k' + 1 := ⟨k - 1, by omega⟩
    rw [hpow, pow_succ, Nat.mul_mod_left] at hmod
    exact absurd rfl hmod

/-- **The search finds a shortest decimal.** -/
theorem isShortest_shortest (h : x.IsDecoded) :
    IsShortest x.significand x.exponent (stripped (digits x.shortest.coefficient))
      (x.shortest.exponent + (digits x.shortest.coefficient).length) := by
  have hpos := coefficient_shortest_pos h
  obtain ⟨hne, hall, hhead⟩ := stripped_digits hpos
  have hlast := getLast?_stripped (digits x.shortest.coefficient)
  have hvalue := pointed_stripped x.shortest
  obtain ⟨j, hle, hrounds, hleast⟩ := h.exists_shortest
  have hlength : (stripped (digits x.shortest.coefficient)).length ≤ j + 1 := by
    refine length_le_of_ofDigits_le hne hall hhead hlast j.succ_pos (le_trans ?_ hle)
    obtain ⟨z, -, heq⟩ := exists_ofDigits_stripped x.shortest.coefficient
    exact (Nat.le_mul_of_pos_right _ (by positivity)).trans heq.le
  rw [← hvalue] at hrounds hleast
  refine ⟨hne, hall, hhead, hlast, hrounds, fun ds' n' hall' hr => ?_,
    fun ds' n' hall' hr hlen => ?_⟩
  · have := (hleast _ _ _ (ofDigits_lt hall') hr).1
    omega
  · have hself := (hleast _ _ _ (ofDigits_lt hall) hrounds).1
    exact (hleast _ _ _ (ofDigits_lt hall') hr).2 (by omega)

end Shortest

/-! ### The place of the point

For both bounds one direction is the monotonicity of rounding, and the other one needs a look at the
double to which the bound itself rounds. -/

section Place

variable {m : ℕ} {q n : ℤ} {ds : List Char}

theorem IsShortest.le_pointed (h : IsShortest m q ds n) : (10 : ℚ) ^ (n - 1) ≤ pointed ds n := by
  have hne := h.ne_nil
  have hall := h.all_digits
  have hhead := h.head_ne
  rw [pointed]
  obtain ⟨d, rest, rfl⟩ := List.exists_cons_of_ne_nil hne
  rw [List.all_cons, Bool.and_eq_true] at hall
  have hlow : (10 ^ rest.length : ℚ) ≤ ofDigits 10 (d :: rest) := by
    exact_mod_cast le_ofDigits_cons rest hall.1 fun h => hhead (by rw [h]; rfl)
  have hsplit : (10 : ℚ) ^ (n - 1) = 10 ^ rest.length * 10 ^ (n - (d :: rest).length) := by
    exact (pow_mul_zpow (by norm_num) (by rw [List.length_cons]; push_cast; ring)).symm
  rw [hsplit]
  gcongr

theorem IsShortest.pointed_lt (h : IsShortest m q ds n) : pointed ds n < 10 ^ n := by
  have hlt : (ofDigits 10 ds : ℚ) < 10 ^ ds.length := by exact_mod_cast ofDigits_lt h.all_digits
  have hsplit : (10 : ℚ) ^ n = 10 ^ ds.length * 10 ^ (n - ds.length) := by
    exact (pow_mul_zpow (by norm_num) (by ring)).symm
  rw [pointed, hsplit]
  gcongr

/-- A double that a power of ten reads back as has one digit, at least as near as that power. -/
theorem IsShortest.near_ten_zpow (h : IsShortest m q ds n) {e : ℤ} (he : RoundsTo (10 ^ e) m q) :
    ds.length = 1 ∧ |pointed ds n - m * 2 ^ q| ≤ |(10 : ℚ) ^ e - m * 2 ^ q| := by
  have hone : pointed ['1'] (e + 1) = 10 ^ e := by
    rw [pointed]
    show ((1 : ℕ) : ℚ) * 10 ^ (e + 1 - (1 : ℕ)) = 10 ^ e
    push_cast
    rw [one_mul, add_sub_cancel_right]
  rw [← hone] at he ⊢
  have hle : ds.length ≤ 1 := h.least ['1'] (e + 1) rfl he
  have hpos : 0 < ds.length := List.length_pos_iff.2 h.ne_nil
  have hlen : ds.length = 1 := by omega
  exact ⟨hlen, h.nearest ['1'] (e + 1) rfl he hlen.symm⟩

/-- The double `10 ^ 21` is exact. -/
theorem isCanonical_large : IsCanonical 7629394531250000 17 :=
  ⟨by norm_num, by norm_num, by norm_num, fun _ => by norm_num⟩

theorem large_eq : ((7629394531250000 : ℕ) * 2 ^ (17 : ℤ) : ℚ) = 10 ^ (21 : ℤ) := by norm_num

/-- The place is above 21 for the numbers from `10 ^ 21` on, which is a double itself. -/
theorem IsShortest.place_gt_iff (c : IsCanonical m q) (h : IsShortest m q ds n) :
    21 < n ↔ ((7629394531250000 : ℕ) * 2 ^ (17 : ℤ) : ℚ) ≤ m * 2 ^ q := by
  have hlarge : RoundsTo (10 ^ (21 : ℤ)) 7629394531250000 17 := by
    rw [← large_eq]
    exact (roundsTo_iff isCanonical_large).2 (inInterval_self _ _)
  constructor
  · intro hn
    have hpow : (10 : ℚ) ^ (21 : ℤ) ≤ 10 ^ (n - 1) :=
      zpow_le_zpow_right₀ (by norm_num) (by omega)
    exact hlarge.le_of_le isCanonical_large c h.rounds (hpow.trans h.le_pointed)
  · intro hle
    by_contra hn
    have hpow : (10 : ℚ) ^ n ≤ 10 ^ (21 : ℤ) := zpow_le_zpow_right₀ (by norm_num) (by omega)
    have hlt := h.pointed_lt.trans_le hpow
    have hge := h.rounds.le_of_le c isCanonical_large hlarge hlt.le
    -- Then the double is the power of ten, whose shortest decimal is exact.
    obtain ⟨rfl, rfl⟩ := c.eq_of_value_eq isCanonical_large (le_antisymm hge hle)
    have hnear := (h.near_ten_zpow hlarge).2
    rw [large_eq, sub_self, abs_zero] at hnear
    have hexact := abs_nonpos_iff.1 hnear
    linarith

/-- The double that `10 ^ -6` reads back as. -/
theorem isCanonical_small : IsCanonical 4722366482869645 (-72) :=
  ⟨by norm_num, by norm_num, by norm_num, fun _ => by norm_num⟩

theorem roundsTo_small : RoundsTo (10 ^ (-6 : ℤ)) 4722366482869645 (-72) := by
  have hnarrow : ¬ IsNarrow 4722366482869645 (-72) := by decide
  rw [roundsTo_iff isCanonical_small]
  refine inInterval_of_lt ?_ ?_
  · rw [gapBelow, if_neg hnarrow]
    norm_num
  · norm_num

/-- The place is at most -6 for the numbers below the double to which `10 ^ -6` rounds. That double
is a little below `10 ^ -6`, and its shortest decimal is `10 ^ -6` all the same. -/
theorem IsShortest.place_le_iff (c : IsCanonical m q) (h : IsShortest m q ds n) :
    n ≤ -6 ↔ (m * 2 ^ q : ℚ) < (4722366482869645 : ℕ) * 2 ^ (-72 : ℤ) := by
  constructor
  · intro hn
    have hpow : (10 : ℚ) ^ n ≤ 10 ^ (-6 : ℤ) := zpow_le_zpow_right₀ (by norm_num) hn
    have hlt := h.pointed_lt.trans_le hpow
    refine lt_of_le_of_ne (h.rounds.le_of_le c isCanonical_small roundsTo_small hlt.le) ?_
    intro heq
    -- Of the decimals with one digit, the next below `10 ^ -6` is too far away.
    obtain ⟨rfl, rfl⟩ := c.eq_of_value_eq isCanonical_small heq
    obtain ⟨hlen, hnear⟩ := h.near_ten_zpow roundsTo_small
    have hdigit : ofDigits 10 ds ≤ 9 := by
      have := ofDigits_lt h.all_digits
      rw [hlen] at this
      omega
    have hstep : pointed ds n ≤ 9 * 10 ^ (-7 : ℤ) := by
      have hcast : (ofDigits 10 ds : ℚ) ≤ 9 := by exact_mod_cast hdigit
      have hexp : (10 : ℚ) ^ (n - ds.length) ≤ 10 ^ (-7 : ℤ) :=
        zpow_le_zpow_right₀ (by norm_num) (by omega)
      rw [pointed]
      gcongr
    rw [abs_of_nonpos (by norm_num at hstep ⊢; linarith)] at hnear
    norm_num [abs_of_nonneg, abs_of_nonpos] at hstep hnear
    linarith
  · intro hlt
    by_contra hn
    have hpow : (10 : ℚ) ^ (-6 : ℤ) ≤ 10 ^ (n - 1) :=
      zpow_le_zpow_right₀ (by norm_num) (by omega)
    have hge := roundsTo_small.le_of_le isCanonical_small c h.rounds (hpow.trans h.le_pointed)
    linarith

end Place

/-! ### Signed texts

A text is a sign and what stands behind it. The two can be told apart, because nothing behind a sign
begins with a minus sign. -/

/-- Only negative numbers carry their sign. -/
def signText : Sign → String
  | .positive => ""
  | .negative => "-"

theorem signText_sign (bits : ℕ) :
    signText (sign bits) = if bits = bits % 9223372036854775808 then "" else "-" := by
  by_cases h : bits = bits % 9223372036854775808
  · rw [sign, if_pos (by omega), if_pos h]
    rfl
  · rw [sign, if_neg (by omega), if_neg h]
    rfl

/-- The texts that numbers other than NaN have behind their sign. The sign of zero is not shown. -/
inductive Unsigned : UnpackedFloat → Sign → List Char → Prop
  | infinity (s : Sign) : Unsigned (.infinity s) s "Infinity".toList
  | zero (s : Sign) : Unsigned (.zero s) .positive ['0']
  | finite {s : Sign} {m : ℕ} {q : ℤ} {hm : 0 < m} {ds body : List Char} {n : ℤ}
      (canonical : IsCanonical m q) (shortest : IsShortest m q ds n)
      (layout : Layout ds n body) : Unsigned (.finite s m q hm) s body

theorem ofDecimal_eq (d : Decimal) :
    ofDecimal d = layout (stripped (digits d.coefficient))
      (d.exponent + (digits d.coefficient).length) :=
  rfl

/-- The text of a number other than NaN, by the cases of its pattern. -/
theorem unsigned_text (x : Float) (hx : x.toModel.unpack ≠ .notANumber) :
    ∃ s u, Unsigned x.toModel.unpack s u ∧ text x = signText s ++ String.ofList u := by
  have hdecodes := decodes_unpack x
  generalize x.toModel.unpack = v at hx hdecodes
  cases hdecodes with
  | notANumber h => exact absurd rfl hx
  | infinity h =>
    refine ⟨_, _, .infinity _, ?_⟩
    rw [signText_sign]
    show (if _ then _ else _) = _
    rw [if_neg (by omega), if_pos (by omega)]
    rfl
  | zero h =>
    refine ⟨_, _, .zero _, ?_⟩
    show (if _ then _ else _) = _
    rw [if_neg (by omega), if_neg (by omega), if_pos (by omega)]
    rfl
  | finite hm hpos hlt hsignificand hexponent =>
    have hdecoded := isDecoded_ofBits hpos hlt
    have hshortest := isShortest_shortest hdecoded
    have hcanonical := hdecoded.canonical
    rw [hsignificand, hexponent] at hshortest hcanonical
    refine ⟨_, _, .finite hcanonical hshortest (layout_layout hshortest.ne_nil _), ?_⟩
    rw [signText_sign, ← ofDecimal_eq]
    show (if _ then _ else _) = _
    rw [if_neg (by omega), if_neg (by omega), if_neg (by omega)]
    rfl

theorem text_of_notANumber {x : Float} (hx : x.toModel.unpack = .notANumber) : text x = "NaN" := by
  have hdecodes := decodes_unpack x
  rw [hx] at hdecodes
  cases hdecodes with
  | notANumber h =>
    show (if _ then _ else _) = _
    rw [if_pos (by omega)]

/-- What stands behind the sign begins with a digit, or with a letter for an infinity. -/
theorem Unsigned.exists_cons {v : UnpackedFloat} {s : Sign} {u : List Char} (h : Unsigned v s u) :
    ∃ c rest, u = c :: rest ∧ c ≠ '-' ∧ (c.isDigit = false ↔ v.isInf = true) := by
  cases h with
  | infinity s => exact ⟨'I', "nfinity".toList, rfl, by decide, iff_of_true rfl rfl⟩
  | zero s => exact ⟨'0', [], rfl, by decide, iff_of_false (by decide) Bool.false_ne_true⟩
  | finite canonical shortest layout =>
    obtain ⟨c, rest, hbody, hc⟩ := layout.head_isDigit shortest.ne_nil shortest.all_digits
    refine ⟨c, rest, hbody, ?_, ?_⟩
    · rintro rfl
      cases hc
    · rw [hc]
      exact iff_of_false (by decide) Bool.false_ne_true

/-- The sign and the text behind it can be told apart. -/
theorem signed_inj {v v' : UnpackedFloat} {s s' : Sign} {u u' : List Char} (h : Unsigned v s u)
    (h' : Unsigned v' s' u')
    (heq : signText s ++ String.ofList u = signText s' ++ String.ofList u') : s = s' ∧ u = u' := by
  obtain ⟨c, rest, rfl, hc, -⟩ := h.exists_cons
  obtain ⟨c', rest', rfl, hc', -⟩ := h'.exists_cons
  have hlist := congrArg String.toList heq
  rw [String.toList_append, String.toList_append, String.toList_ofList, String.toList_ofList]
    at hlist
  cases s <;> cases s'
  · exact ⟨rfl, List.append_cancel_left hlist⟩
  · injection hlist with hhead htail
    exact absurd hhead.symm hc'
  · injection hlist with hhead htail
    exact absurd hhead hc
  · exact ⟨rfl, hlist⟩

theorem IsShortest.pointed_pos {m : ℕ} {q n : ℤ} {ds : List Char} (h : IsShortest m q ds n) :
    0 < pointed ds n :=
  lt_of_lt_of_le (by positivity) h.le_pointed

theorem reading_zero : reading ['0'] = 0 := by
  show ((0 : ℕ) : ℚ) * 10 ^ (0 : ℤ) = 0
  rw [Nat.cast_zero, zero_mul]

/-- The text behind the sign determines the number up to the sign. -/
theorem Unsigned.compare_eq {v v' : UnpackedFloat} {s s' : Sign} {u u' : List Char}
    (h : Unsigned v s u) (h' : Unsigned v' s' u') (hs : s = s') (hu : u = u') :
    v.compare v' = some .eq := by
  have hinf : v.isInf = true ↔ v'.isInf = true := by
    obtain ⟨c, rest, hcons, -, hc⟩ := h.exists_cons
    obtain ⟨c', rest', hcons', -, hc'⟩ := h'.exists_cons
    rw [hu, hcons'] at hcons
    rw [← hc, ← hc', (List.cons.inj hcons).1]
  cases h with
  | infinity s =>
    cases h' with
    | infinity s' =>
      subst hs
      cases s <;> rfl
    | zero s' => exact absurd (hinf.1 rfl) Bool.false_ne_true
    | finite canonical' shortest' layout' => exact absurd (hinf.1 rfl) Bool.false_ne_true
  | zero s =>
    cases h' with
    | infinity s' => exact absurd (hinf.2 rfl) Bool.false_ne_true
    | zero s' => rfl
    | finite canonical' shortest' layout' =>
      have hread := layout'.reading_eq shortest'.all_digits
      rw [← hu, reading_zero] at hread
      exact absurd hread shortest'.pointed_pos.ne
  | finite canonical shortest layout =>
    have hread := layout.reading_eq shortest.all_digits
    cases h' with
    | infinity s' => exact absurd (hinf.2 rfl) Bool.false_ne_true
    | zero s' =>
      rw [hu, reading_zero] at hread
      exact absurd hread shortest.pointed_pos.ne
    | finite canonical' shortest' layout' =>
      -- Both layouts are read as one number, which rounds to one double only.
      rw [hu, layout'.reading_eq shortest'.all_digits] at hread
      have hrounds := shortest.rounds
      rw [← hread] at hrounds
      obtain ⟨rfl, rfl⟩ := hrounds.eq canonical canonical' shortest'.rounds
      subst hs
      cases s
      · show some ((compare _ _).then (compare _ _)).swap = _
        rw [compare_eq_iff_eq.2 rfl, compare_eq_iff_eq.2 rfl]
        rfl
      · show some ((compare _ _).then (compare _ _)) = _
        rw [compare_eq_iff_eq.2 rfl, compare_eq_iff_eq.2 rfl]
        rfl

/-! ### The text of every number

The results are about `Float` and its own tests and comparisons, so that they can be read without
the model of its bits. -/

theorem unpack_zero : (0 : Float).toModel.unpack = .zero .positive := rfl

theorem unpack_large :
    (1e21 : Float).toModel.unpack = .finite .positive 7629394531250000 17 (by decide) := rfl

theorem unpack_small :
    (1e-6 : Float).toModel.unpack = .finite .positive 4722366482869645 (-72) (by decide) := rfl

theorem isNaN_iff (x : Float) : x.isNaN = true ↔ x.toModel.unpack = .notANumber := by
  show x.toModel.unpack.isNaN = true ↔ _
  cases x.toModel.unpack with
  | notANumber => exact iff_of_true rfl rfl
  | _ => exact iff_of_false Bool.false_ne_true (by intro h; cases h)

/-- A number below zero is one whose sign is written. -/
theorem lt_zero_iff {x : Float} {s : Sign}
    (h : x.toModel.unpack = .infinity s ∨ ∃ m q hm, x.toModel.unpack = .finite s m q hm) :
    x < 0 ↔ s = .negative := by
  rw [lt_iff_compare, unpack_zero]
  rcases h with h | ⟨m, q, hm, h⟩ <;> rw [h] <;> cases s
  · exact iff_of_true rfl rfl
  · exact iff_of_false (by intro h; cases h) (by intro h; cases h)
  · exact iff_of_true rfl rfl
  · exact iff_of_false (by intro h; cases h) (by intro h; cases h)

theorem text_of_isInf {x : Float} (hx : x.isInf = true) :
    text x = if x < 0 then "-Infinity" else "Infinity" := by
  have hinf : x.toModel.unpack.isInf = true := hx
  obtain ⟨s, u, hunsigned, htext⟩ := unsigned_text x fun h => by rw [h] at hinf; cases hinf
  rw [htext]
  generalize hv : x.toModel.unpack = v at hinf hunsigned
  cases hunsigned with
  | infinity s =>
    have hsign := lt_zero_iff (.inl hv)
    cases s
    · rw [if_pos (hsign.2 rfl)]
      rfl
    · rw [if_neg fun h => by cases hsign.1 h]
      rfl
  | zero s => cases hinf
  | finite canonical shortest layout => cases hinf

theorem text_of_beq_zero {x : Float} (hx : (x == 0) = true) : text x = "0" := by
  rw [beq_iff_compare, unpack_zero] at hx
  obtain ⟨s, u, hunsigned, htext⟩ := unsigned_text x fun h => by rw [h] at hx; cases hx
  rw [htext]
  generalize x.toModel.unpack = v at hx hunsigned
  cases hunsigned with
  | zero s => rfl
  | infinity s => cases s <;> cases hx
  | @finite s _ _ _ _ _ _ canonical shortest layout => cases s <;> cases hx

/-- The magnitude of a number is the double `m * 2 ^ q`, other than zero, with its significand and
its exponent as they are stored. -/
def HasMagnitude (x : Float) (m : ℕ) (q : ℤ) : Prop :=
  ∃ (s : Sign) (hm : 0 < m), x.toModel.unpack = .finite s m q hm

/-- The comparisons with `1e21` and `1e-6` tell which places are written with an exponent. -/
theorem IsShortest.exponent_iff {x : Float} {m : ℕ} {q n : ℤ} {ds : List Char}
    (hx : HasMagnitude x m q) (h : IsShortest m q ds n) :
    (1e21 ≤ x.abs ∨ x.abs < 1e-6) ↔ (n ≤ -6 ∨ 21 < n) := by
  obtain ⟨s, hm, hunpack⟩ := hx
  have c := (isCanonical_of_unpack_eq hunpack).1
  rw [le_abs_iff hunpack unpack_large, abs_lt_iff hunpack unpack_small, h.place_gt_iff c,
    h.place_le_iff c, or_comm]

theorem exists_layout {x : Float} (hx : x.isFinite = true) (hzero : (x == 0) = false) :
    ∃ (m : ℕ) (q : ℤ) (ds : List Char) (n : ℤ) (body : List Char),
      HasMagnitude x m q ∧ IsShortest m q ds n ∧ Layout ds n body ∧
        text x = (if x < 0 then "-" else "") ++ String.ofList body ∧
        ((1e21 ≤ x.abs ∨ x.abs < 1e-6) ↔ (n ≤ -6 ∨ 21 < n)) := by
  have hfinite : x.toModel.unpack.isFinite = true := hx
  have hne : x.toModel.unpack.compare (.zero .positive) ≠ some .eq := fun h => by
    rw [(beq_iff_compare x 0).2 h] at hzero
    cases hzero
  obtain ⟨s, u, hunsigned, htext⟩ := unsigned_text x fun h => by rw [h] at hfinite; cases hfinite
  generalize hv : x.toModel.unpack = v at hfinite hne hunsigned
  cases hunsigned with
  | infinity s => cases hfinite
  | zero s => exact absurd rfl hne
  | @finite s m q hm ds body n canonical shortest layout =>
    have hmagnitude : HasMagnitude x m q := ⟨s, hm, hv⟩
    refine ⟨m, q, ds, n, u, hmagnitude, shortest, layout, ?_, shortest.exponent_iff hmagnitude⟩
    have hsign := lt_zero_iff (.inr ⟨m, q, hm, hv⟩)
    rw [htext]
    cases s
    · rw [if_pos (hsign.2 rfl)]
      rfl
    · rw [if_neg fun h => by cases hsign.1 h]
      rfl

/-- Numbers are written as a sign and a layout of their shortest digits. Whether the layout has an
exponent can be told by comparing with `1e21` and `1e-6`. Numbers with the same text are equal. -/
theorem text_layout (x : Float) :
    (x.isNaN = true → text x = "NaN") ∧
      (x.isInf = true → text x = if x < 0 then "-Infinity" else "Infinity") ∧
      ((x == 0) = true → text x = "0") ∧
      (x.isFinite = true → (x == 0) = false →
        ∃ (m : ℕ) (q : ℤ) (ds : List Char) (n : ℤ) (body : List Char),
          HasMagnitude x m q ∧ IsShortest m q ds n ∧ Layout ds n body ∧
            text x = (if x < 0 then "-" else "") ++ String.ofList body ∧
            ((1e21 ≤ x.abs ∨ x.abs < 1e-6) ↔ (n ≤ -6 ∨ 21 < n))) ∧
      ∀ y : Float, x.isNaN = false → y.isNaN = false → text x = text y → (x == y) = true := by
  have hnumber : ∀ z : Float, z.isNaN = false → z.toModel.unpack ≠ .notANumber := by
    intro z hz h
    rw [(isNaN_iff z).2 h] at hz
    cases hz
  refine ⟨fun h => text_of_notANumber ((isNaN_iff x).1 h), text_of_isInf, text_of_beq_zero,
    exists_layout, fun y hx hy heq => ?_⟩
  obtain ⟨s, u, hu, htext⟩ := unsigned_text x (hnumber x hx)
  obtain ⟨s', u', hu', htext'⟩ := unsigned_text y (hnumber y hy)
  rw [htext, htext'] at heq
  obtain ⟨hs, hbody⟩ := signed_inj hu hu' heq
  exact (beq_iff_compare x y).2 (hu.compare_eq hu' hs hbody)

end Number

end ArrowCalc
