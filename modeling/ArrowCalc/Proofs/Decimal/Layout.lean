import ArrowCalc.Number
import ArrowCalc.Proofs.Canonical
import Mathlib.Algebra.Order.Field.Power
import Mathlib.Algebra.Order.Field.Rat
import Mathlib.Tactic.Linarith
import Mathlib.Tactic.NormNum
import Mathlib.Tactic.Positivity
import Mathlib.Tactic.Ring

/-!
# Layouts of decimal numbers

Digits `d₁ … dₖ` and a place `n` stand for the number `0.d₁…dₖ * 10 ^ n`. `Layout` lists the ways of
writing it, by the place of the point, and `reading` reads a written number without knowing which
way was chosen.

## A specification and a reader

`Layout` is the specification of `Number.layout`: which of five forms is used for which places, with
the bounds written out. It could still be wrong in a way that makes two numbers look the same, for
example by a zero too few. That it is not is shown by reading: `reading` is defined without any
reference to the layouts, from what digits, points and exponents mean, and it gives back the number
in each of the five cases (`Layout.reading_eq`). So the text of a number determines the number.

The numbers are rational here, and the digits are any digits. That they are the shortest ones of a
double is the matter of another module.

## Main results

* `layout_layout`: `Number.layout` writes every number in the way that its place asks for.
* `Layout.reading_eq`: reading a layout gives back the number that it stands for.
-/

namespace ArrowCalc

namespace Decimal

/-! ### Digits

What is needed of the value of digits: appending, zeros at either end, and the bounds that the
number of digits gives. -/

theorem digitValue_lt {c : Char} (hc : c.isDigit = true) : digitValue c < 10 := by
  have hrange : 48 ≤ c.toNat ∧ c.toNat ≤ 57 := Char.isDigit_iff_toNat.1 hc
  rw [digitValue, if_pos hc]
  omega

theorem digitValue_pos {c : Char} (hc : c.isDigit = true) (hzero : c ≠ '0') :
    0 < digitValue c := by
  have hrange : 48 ≤ c.toNat ∧ c.toNat ≤ 57 := Char.isDigit_iff_toNat.1 hc
  have hne : c.toNat ≠ 48 := fun h => hzero (Char.toNat_inj.1 h)
  rw [digitValue, if_pos hc]
  omega

/-- Digits behind others move those up by as many places. -/
theorem ofDigits_append (radix : ℕ) (as bs : List Char) :
    ofDigits radix (as ++ bs) = ofDigits radix as * radix ^ bs.length + ofDigits radix bs := by
  induction bs using List.reverseRecOn with
  | nil => simp
  | append_singleton bs c ih =>
    rw [← List.append_assoc, ofDigits_concat, ofDigits_concat, ih, List.length_append,
      List.length_singleton, pow_succ]
    ring

theorem ofDigits_replicate_zero (z : ℕ) : ofDigits 10 (List.replicate z '0') = 0 := by
  induction z with
  | zero => rfl
  | succ z ih => rw [List.replicate_succ', ofDigits_concat, ih]; rfl

theorem ofDigits_lt {ds : List Char} (hds : ds.all Char.isDigit = true) :
    ofDigits 10 ds < 10 ^ ds.length := by
  induction ds using List.reverseRecOn with
  | nil => exact Nat.one_pos
  | append_singleton ds c ih =>
    rw [List.all_append, Bool.and_eq_true, List.all_cons, List.all_nil, Bool.and_true] at hds
    have hlt := ih hds.1
    have hc := digitValue_lt hds.2
    rw [ofDigits_concat, List.length_append, List.length_singleton, pow_succ]
    omega

/-- Digits without a leading zero write a number of their length. -/
theorem le_ofDigits_cons {d : Char} (ds : List Char) (hd : d.isDigit = true) (hzero : d ≠ '0') :
    10 ^ ds.length ≤ ofDigits 10 (d :: ds) := by
  have hpos : 0 < ofDigits 10 [d] := by
    have := digitValue_pos hd hzero
    rw [← List.nil_append [d], ofDigits_concat]
    omega
  rw [← List.singleton_append, ofDigits_append]
  exact (Nat.le_mul_of_pos_left _ hpos).trans (Nat.le_add_right _ _)

end Decimal

namespace Number

open Decimal

/-- The number `0.d₁…dₖ * 10 ^ n`. -/
def pointed (ds : List Char) (n : ℤ) : ℚ := ofDigits 10 ds * 10 ^ (n - ds.length)

/-! ### The layouts -/

/-- The exponent that stands behind the letter `e`: it always has a sign. -/
def exponentText (e : ℤ) : List Char := (if e < 0 then '-' else '+') :: Nat.toDigits 10 e.natAbs

/-- The text that writes the number `0.d₁…dₖ * 10 ^ n`. -/
inductive Layout (ds : List Char) (n : ℤ) : List Char → Prop
  /-- An integer of at most 21 digits is written out. -/
  | integer (z : ℕ) (hn : n = ds.length + z) (hle : n ≤ 21) :
      Layout ds n (ds ++ List.replicate z '0')
  /-- The point stands among the digits. -/
  | point (whole fraction : List Char) (hds : ds = whole ++ fraction) (hn : n = whole.length)
      (hwhole : whole ≠ []) (hfraction : fraction ≠ []) (hle : n ≤ 21) :
      Layout ds n (whole ++ '.' :: fraction)
  /-- At most five zeros stand between the point and the digits. -/
  | fraction (z : ℕ) (hn : n = -z) (hz : -6 < n) :
      Layout ds n ('0' :: '.' :: (List.replicate z '0' ++ ds))
  /-- One digit and an exponent. -/
  | oneDigit (d : Char) (hds : ds = [d]) (hn : n ≤ -6 ∨ 21 < n) :
      Layout ds n (d :: 'e' :: exponentText (n - 1))
  /-- The point behind the first of several digits, and an exponent. -/
  | scientific (d : Char) (rest : List Char) (hds : ds = d :: rest) (hrest : rest ≠ [])
      (hn : n ≤ -6 ∨ 21 < n) :
      Layout ds n (d :: '.' :: (rest ++ 'e' :: exponentText (n - 1)))

theorem layout_scientific {ds : List Char} {n : ℤ} (hds : ds ≠ []) (hn : n ≤ -6 ∨ 21 < n) :
    Layout ds n (scientific ds n) := by
  cases ds with
  | nil => exact absurd rfl hds
  | cons d rest =>
    by_cases hrest : rest = []
    · subst hrest
      exact .oneDigit d rfl hn
    · have htext : scientific (d :: rest) n =
          d :: '.' :: (rest ++ 'e' :: exponentText (n - 1)) := by
        show [d] ++ (if rest = [] then [] else '.' :: rest) ++ 'e' :: exponentText (n - 1) = _
        rw [if_neg hrest]
        rfl
      rw [htext]
      exact .scientific d rest rfl hrest hn

/-- **Every number is written in one of the ways.** The tests of `layout` are made one after the
other, and what is left for each way are the places that its constructor names. -/
theorem layout_layout {ds : List Char} (hds : ds ≠ []) (n : ℤ) : Layout ds n (layout ds n) := by
  have hlen : 0 < ds.length := List.length_pos_iff.2 hds
  rw [layout]
  split
  · next h => exact .integer (n - ds.length).toNat (by omega) h.2
  · next hlong =>
    split
    · next h =>
      refine .point (ds.take n.toNat) (ds.drop n.toNat) (List.take_append_drop _ _).symm ?_ ?_ ?_
        h.2
      · rw [List.length_take]
        omega
      · rw [← List.length_pos_iff, List.length_take]
        omega
      · rw [← List.length_pos_iff, List.length_drop]
        omega
    · next hpoint =>
      split
      · next h => exact .fraction (-n).toNat (by omega) h.1
      · next hsmall => exact layout_scientific hds (by omega)

/-! ### Reading

A written number is read from left to right, without a second look: digits, perhaps a point with
more digits, perhaps an exponent. -/

/-- The exponent that a written number ends with. -/
def exponentOf : List Char → ℤ
  | 'e' :: '+' :: ds => ofDigits 10 ds
  | 'e' :: '-' :: ds => -ofDigits 10 ds
  | _ => 0

/-- The number that is written: digits, perhaps a point and more digits, perhaps an exponent. -/
def reading (body : List Char) : ℚ :=
  let whole := body.takeWhile Char.isDigit
  match body.dropWhile Char.isDigit with
  | '.' :: rest =>
    let fraction := rest.takeWhile Char.isDigit
    ofDigits 10 (whole ++ fraction) *
      10 ^ (exponentOf (rest.dropWhile Char.isDigit) - fraction.length)
  | rest => ofDigits 10 whole * 10 ^ exponentOf rest

/-- What may follow the digits: nothing or an exponent. -/
def IsTail (tail : List Char) : Prop := tail = [] ∨ tail.head? = some 'e'

theorem IsTail.takeWhile {tail : List Char} (h : IsTail tail) :
    tail.takeWhile Char.isDigit = [] ∧ tail.dropWhile Char.isDigit = tail := by
  cases tail with
  | nil => exact ⟨rfl, rfl⟩
  | cons c cs =>
    have hc : c = 'e' := by
      rcases h with h | h
      · cases h
      · exact Option.some_inj.1 h
    subst hc
    exact ⟨rfl, rfl⟩

theorem takeWhile_digits {ds : List Char} (hds : ds.all Char.isDigit = true) (rest : List Char) :
    (ds ++ rest).takeWhile Char.isDigit = ds ++ rest.takeWhile Char.isDigit ∧
      (ds ++ rest).dropWhile Char.isDigit = rest.dropWhile Char.isDigit := by
  rw [List.all_eq_true] at hds
  exact ⟨List.takeWhile_append_of_pos hds, List.dropWhile_append_of_pos hds⟩

/-- Digits without a point. -/
theorem reading_plain {whole tail : List Char} (hwhole : whole.all Char.isDigit = true)
    (htail : IsTail tail) :
    reading (whole ++ tail) = ofDigits 10 whole * 10 ^ exponentOf tail := by
  obtain ⟨htake, hdrop⟩ := takeWhile_digits hwhole tail
  rw [htail.takeWhile.1, List.append_nil] at htake
  rw [htail.takeWhile.2] at hdrop
  unfold reading
  rw [htake, hdrop]
  split
  · next rest =>
    rcases htail with h | h
    · cases h
    · cases h
  · rfl

/-- Digits with a point among them: those behind it count as a fraction. -/
theorem reading_point {whole fraction tail : List Char} (hwhole : whole.all Char.isDigit = true)
    (hfraction : fraction.all Char.isDigit = true) (htail : IsTail tail) :
    reading (whole ++ '.' :: (fraction ++ tail)) =
      ofDigits 10 (whole ++ fraction) * 10 ^ (exponentOf tail - fraction.length) := by
  obtain ⟨htake, hdrop⟩ := takeWhile_digits hwhole ('.' :: (fraction ++ tail))
  obtain ⟨htake', hdrop'⟩ := takeWhile_digits hfraction tail
  rw [htail.takeWhile.1, List.append_nil] at htake'
  rw [htail.takeWhile.2] at hdrop'
  have hpoint : ('.' :: (fraction ++ tail)).takeWhile Char.isDigit = [] := rfl
  have hpoint' : ('.' :: (fraction ++ tail)).dropWhile Char.isDigit = '.' :: (fraction ++ tail) :=
    rfl
  rw [hpoint, List.append_nil] at htake
  rw [hpoint'] at hdrop
  unfold reading
  rw [htake, hdrop]
  show (ofDigits 10 (whole ++ (fraction ++ tail).takeWhile Char.isDigit) : ℚ) *
    10 ^ (exponentOf ((fraction ++ tail).dropWhile Char.isDigit) -
      ((fraction ++ tail).takeWhile Char.isDigit).length) = _
  rw [htake', hdrop']

theorem exponentOf_exponentText (e : ℤ) : exponentOf ('e' :: exponentText e) = e := by
  rw [exponentText]
  split
  · show -((ofDigits 10 (Nat.toDigits 10 e.natAbs) : ℕ) : ℤ) = e
    rw [ofDigits_toDigits]
    omega
  · show ((ofDigits 10 (Nat.toDigits 10 e.natAbs) : ℕ) : ℤ) = e
    rw [ofDigits_toDigits]
    omega

theorem all_replicate_zero (z : ℕ) : (List.replicate z '0').all Char.isDigit = true := by
  rw [List.all_eq_true]
  intro c hc
  rw [List.eq_of_mem_replicate hc]
  rfl

/-- **A layout is read as the number that it stands for.** In each case the zeros that were added
are a power of ten, which the place makes up for. -/
theorem Layout.reading_eq {ds body : List Char} {n : ℤ} (hds : ds.all Char.isDigit = true)
    (h : Layout ds n body) : reading body = pointed ds n := by
  have hnil : IsTail [] := .inl rfl
  have htail : IsTail ('e' :: exponentText (n - 1)) := .inr rfl
  rw [pointed]
  cases h with
  | integer z hn hle =>
    have hall : (ds ++ List.replicate z '0').all Char.isDigit = true := by
      rw [List.all_append, hds, all_replicate_zero]
      rfl
    have hread := reading_plain hall hnil
    rw [List.append_nil] at hread
    rw [hread, ofDigits_append, ofDigits_replicate_zero, List.length_replicate, hn]
    push_cast
    rw [add_sub_cancel_left, zpow_natCast]
    show _ * (10 : ℚ) ^ (0 : ℤ) = _
    ring
  | point whole fraction hsplit hn hwhole hfraction hle =>
    subst hsplit
    rw [List.all_append, Bool.and_eq_true] at hds
    have hread := reading_point hds.1 hds.2 hnil
    rw [List.append_nil] at hread
    rw [hread, List.length_append, hn]
    congr 2
    show (0 : ℤ) - _ = _
    push_cast
    ring
  | fraction z hn hz =>
    have hall : (List.replicate z '0' ++ ds).all Char.isDigit = true := by
      rw [List.all_append, hds, all_replicate_zero]
      rfl
    have hzero : ['0'].all Char.isDigit = true := rfl
    have hread := reading_point hzero hall hnil
    rw [List.append_nil] at hread
    -- the zero in front of the point is one more leading zero
    have hzeros : ['0'] ++ (List.replicate z '0' ++ ds) = List.replicate (z + 1) '0' ++ ds := rfl
    refine hread.trans ?_
    rw [hzeros, ofDigits_append, ofDigits_replicate_zero, List.length_append,
      List.length_replicate, hn, Nat.zero_mul, Nat.zero_add]
    congr 2
    show (0 : ℤ) - _ = _
    push_cast
    ring
  | oneDigit d hone hn =>
    subst hone
    have hread := reading_plain hds htail
    rw [exponentOf_exponentText] at hread
    exact hread
  | scientific d rest hsplit hrest hn =>
    subst hsplit
    rw [← List.singleton_append, List.all_append, Bool.and_eq_true] at hds
    have hread := reading_point hds.1 hds.2 htail
    rw [exponentOf_exponentText] at hread
    refine hread.trans ?_
    rw [List.singleton_append, List.length_cons]
    congr 2
    push_cast
    ring

/-- A layout begins with a digit. -/
theorem Layout.head_isDigit {ds body : List Char} {n : ℤ} (hne : ds ≠ [])
    (hds : ds.all Char.isDigit = true) (h : Layout ds n body) :
    ∃ c rest, body = c :: rest ∧ c.isDigit = true := by
  have hcons : ∀ {as : List Char} (bs : List Char), as ≠ [] → as.all Char.isDigit = true →
      ∃ c rest, as ++ bs = c :: rest ∧ c.isDigit = true := by
    intro as bs has hall
    obtain ⟨c, cs, rfl⟩ := List.exists_cons_of_ne_nil has
    rw [List.all_cons, Bool.and_eq_true] at hall
    exact ⟨c, cs ++ bs, rfl, hall.1⟩
  cases h with
  | integer z hn hle => exact hcons _ hne hds
  | point whole fraction hsplit hn hwhole hfraction hle =>
    rw [hsplit, List.all_append, Bool.and_eq_true] at hds
    exact hcons _ hwhole hds.1
  | fraction z hn hz => exact ⟨'0', _, rfl, rfl⟩
  | oneDigit d hone hn =>
    rw [hone] at hne hds
    exact hcons _ hne hds
  | scientific d rest hsplit hrest hn =>
    rw [hsplit, List.all_cons, Bool.and_eq_true] at hds
    exact ⟨d, _, rfl, hds.1⟩

end Number

end ArrowCalc
