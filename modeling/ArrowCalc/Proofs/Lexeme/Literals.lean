import ArrowCalc.Proofs.Lexeme.LongestMatch
import Mathlib.Data.List.DropRight
import Mathlib.Data.Nat.Digits.Defs

/-!
# The numbers that literals write

What number a literal stands for is said here without the functions that compute it. A numeral is
read with the table of the digits, as a sum over the places. An integer literal writes such a
numeral in radix ten, eight or sixteen, without a bound. A float literal writes a decimal number:
its digits, and the power of ten that its point and its exponent give.

## Unfinished exponents

The pattern of float literals admits an exponent without digits, as in `1.5e-`. The program cuts
off characters from the end of the literal as long as they could belong to such an exponent, and
never looks at what is in front of them. As a specification the *longest* beginning of the literal
that is a decimal number is taken instead (`LongestDecimal`), which does not depend on any
particular character.

The two agree because of where the characters `e`, `E` and `-` can stand in a literal. A decimal
number never ends in one of them (`DecimalValue.isFinished`), so nothing longer than what is left
can be one, and in a literal they stand in a row only where the digits of the exponent are missing
(`exists_exponentValue`), so what is left is one.

## Main definitions

* `Literal.numeral`, `Literal.Writes` — the numbers that integer literals write
* `Literal.DecimalValue` — the decimal numbers that texts write
* `Literal.LongestDecimal` — the decimal number that a float literal writes

## Main results

* `Literal.int?_eq_some_iff`, `Literal.int?_eq_none_iff` — integer literals
* `Literal.longestDecimal_iff` — float literals
-/

namespace ArrowCalc

open Computability Lexeme Pattern

namespace Literal

/-! ### Digits

The table has sixteen digits, and a smaller radix uses those at the beginning. -/

/-- The digits, each at the place of its value. -/
def digitTable : List Char :=
  ['0', '1', '2', '3', '4', '5', '6', '7', '8', '9', 'a', 'b', 'c', 'd', 'e', 'f']

/-- The number that digits write in a radix: the sum of the digits, each times the power of the
radix that belongs to its place. Letters count in either case. -/
def numeral (radix : ℕ) (ds : List Char) : ℕ :=
  Nat.ofDigits radix (ds.reverse.map fun c => digitTable.idxOf c.toLower)

theorem toNat_lt_of_isHexDigit {c : Char} (h : isHexDigit c) : c.toNat < 128 := by
  have hle : ∀ d : Char, c ≤ d → d.toNat < 128 → c.toNat < 128 := fun d hcd hd =>
    Nat.lt_of_le_of_lt (UInt32.le_iff_toNat_le.mp hcd) hd
  simp only [isHexDigit, decide_eq_true_eq] at h
  rcases h with h | ⟨-, h⟩ | ⟨-, h⟩
  · exact hle '9' ((isDigit_iff c).mp h).2 (by decide)
  · exact hle 'f' h (by decide)
  · exact hle 'F' h (by decide)

/-- The value of a digit is its place in the table. There are few enough characters that could be
digits to compare all of them. -/
theorem digitValue_eq_idxOf {c : Char} (h : isHexDigit c) :
    Decimal.digitValue c = digitTable.idxOf c.toLower := by
  have htable : ∀ k < 128, isHexDigit (Char.ofNat k) →
      Decimal.digitValue (Char.ofNat k) = digitTable.idxOf (Char.ofNat k).toLower := by
    decide +kernel
  have hc := htable c.toNat (toNat_lt_of_isHexDigit h)
  rw [Char.ofNat_toNat] at hc
  exact hc h

/-- The digits are added up from the left by the program, and by place in `numeral`. -/
theorem ofDigits_eq_numeral {radix : ℕ} {ds : List Char} (h : ∀ c ∈ ds, isHexDigit c) :
    Decimal.ofDigits radix ds = numeral radix ds := by
  induction ds using List.reverseRecOn with
  | nil => rfl
  | append_singleton ds c ih =>
    obtain ⟨hds, hc⟩ := List.forall_mem_append.mp h
    rw [Decimal.ofDigits_concat, ih hds, digitValue_eq_idxOf (hc c List.mem_cons_self), numeral,
      numeral, List.reverse_append, List.reverse_singleton, List.singleton_append, List.map_cons,
      Nat.ofDigits_cons, Nat.add_comm]

theorem isHexDigit_of_isDigit {c : Char} (h : c.isDigit) : isHexDigit c := decide_eq_true (.inl h)

theorem isHexDigit_of_isOctDigit {c : Char} (h : isOctDigit c) : isHexDigit c := by
  simp only [isOctDigit, decide_eq_true_eq] at h
  exact isHexDigit_of_isDigit ((isDigit_iff c).mpr ⟨h.1, h.2.trans (by decide)⟩)

theorem ofDigits_decimal {ds : List Char} (h : ds.all Char.isDigit) :
    Decimal.ofDigits 10 ds = numeral 10 ds :=
  ofDigits_eq_numeral fun c hc => isHexDigit_of_isDigit (List.all_eq_true.mp h c hc)

/-! ### Integers

The radix is read off the beginning of the literal. The bound on integers is no part of what a
literal writes: it decides whether the program has a value for it. -/

/-- The number that an integer literal writes. A mark of radix sixteen without digits writes
none. -/
inductive Writes : List Char → ℕ → Prop where
  | decimal {w : List Char} (hw : w ∈ whole) : Writes w (numeral 10 w)
  | octal {ds : List Char} (hds : ds ∈ oneOrMore octalDigit) : Writes ('0' :: ds) (numeral 8 ds)
  | hex {x : Char} {ds : List Char} (hx : x = 'x' ∨ x = 'X') (hds : ds ∈ oneOrMore hexDigit) :
      Writes ('0' :: x :: ds) (numeral 16 ds)

/-- The literal writes no number below the bound of integers. -/
def IsOutOfRange (w : List Char) : Prop := ∀ n, Writes w n → 2 ^ 63 ≤ n

/-- The bound is compared with the number that the digits write. -/
theorem bounded?_eq_ite {radix : ℕ} {ds : List Char} (hne : ds ≠ [])
    (hds : ∀ c ∈ ds, isHexDigit c) :
    bounded? radix ds = if numeral radix ds < 2 ^ 63 then some (numeral radix ds) else none := by
  simp only [bounded?, ofDigits_eq_numeral hds, intBound, hne, true_and, ne_eq, not_false_eq_true]
  rfl

/-- The literal has its value, if the value fits. -/
theorem Writes.int? {w : List Char} {n : ℕ} (h : Writes w n) :
    int? w = if n < 2 ^ 63 then some n else none := by
  cases h with
  | decimal hw =>
    cases w with
    | nil => exact absurd hw nil_notMem_whole
    | cons c v =>
      obtain ⟨hc, hv, hzero⟩ := cons_mem_whole.mp hw
      -- in a decimal literal nothing follows a leading zero, so the radix is ten
      have hint : Literal.int? (c :: v) = bounded? 10 (c :: v) := by
        rw [Literal.int?.eq_def]
        split
        · next heq =>
          obtain ⟨rfl, rfl⟩ := List.cons.inj heq
          cases hzero rfl
        · rfl
      have hall : ∀ d ∈ c :: v, d.isDigit := List.forall_mem_cons.mpr ⟨hc, List.all_eq_true.mp hv⟩
      rw [hint, bounded?_eq_ite (List.cons_ne_nil c v)
        fun d hd => isHexDigit_of_isDigit (hall d hd)]
  | @octal ds hds =>
    cases ds with
    | nil => exact absurd hds isClass_octalDigit.nil_notMem_mul
    | cons d ds =>
      have hall := List.all_eq_true.mp (isClass_octalDigit.mem_oneOrMore.mp hds).2
      have hd := hall d List.mem_cons_self
      have hx : ¬ (d = 'x' ∨ d = 'X') := by
        rintro (rfl | rfl) <;> cases hd
      rw [Literal.int?, if_neg hx, bounded?_eq_ite (List.cons_ne_nil d ds) fun c hc =>
        isHexDigit_of_isOctDigit (hall c hc)]
  | hex hx hds =>
    obtain ⟨hne, hall⟩ := isClass_hexDigit.mem_oneOrMore.mp hds
    rw [Literal.int?, if_pos hx, bounded?_eq_ite hne (List.all_eq_true.mp hall)]

/-- Only a literal without digits has no value at all. -/
theorem exists_writes_or {w : List Char} (h : w ∈ integer) :
    (∃ n, Writes w n) ∨ Literal.int? w = none := by
  cases w with
  | nil => exact absurd h nil_notMem_integer
  | cons c v =>
    rcases cons_mem_integer.mp h with ⟨hc, hzero, hv⟩ | ⟨rfl, hv⟩ | ⟨rfl, x, ds, rfl, hx, hds⟩
    · exact .inl ⟨_, .decimal (cons_mem_whole.mpr ⟨hc, hv, fun h => absurd h hzero⟩)⟩
    · by_cases hnil : v = []
      · rw [hnil]
        exact .inl ⟨_, .decimal (cons_mem_whole.mpr ⟨rfl, rfl, fun _ => rfl⟩)⟩
      · exact .inl ⟨_, .octal (isClass_octalDigit.mem_oneOrMore.mpr ⟨hnil, hv⟩)⟩
    · by_cases hnil : ds = []
      · rw [hnil, Literal.int?, if_pos hx]
        exact .inr rfl
      · exact .inl ⟨_, .hex hx (isClass_hexDigit.mem_oneOrMore.mpr ⟨hnil, hds⟩)⟩

/-- **Integer literals.** The program has the value that the literal writes, if it is in range. -/
theorem int?_eq_some_iff {w : List Char} (h : w ∈ integer) {n : ℕ} :
    Literal.int? w = some n ↔ Writes w n ∧ n < 2 ^ 63 := by
  constructor
  · intro hint
    rcases exists_writes_or h with ⟨m, hm⟩ | hnone
    · rw [hm.int?] at hint
      split at hint
      · next hfits =>
        cases hint
        exact ⟨hm, hfits⟩
      · cases hint
    · rw [hnone] at hint
      cases hint
  · rintro ⟨hn, hfits⟩
    rw [hn.int?, if_pos hfits]

/-- It has none exactly if the literal writes no number that is in range. -/
theorem int?_eq_none_iff {w : List Char} (h : w ∈ integer) :
    Literal.int? w = none ↔ IsOutOfRange w := by
  constructor
  · intro hnone n hn
    rw [hn.int?] at hnone
    split at hnone
    · cases hnone
    · next hfits => exact Nat.le_of_not_lt hfits
  · intro hlarge
    rcases exists_writes_or h with ⟨n, hn⟩ | hnone
    · rw [hn.int?, if_neg (Nat.not_lt_of_le (hlarge n hn))]
    · exact hnone

/-! ### Floats

A decimal number is its digits without the point, with a power of ten that accounts for the point.
The digits are not shortened, so that `1.50` and `1.5` are different decimals with the same value.
-/

/-- The power of ten that the end of a decimal number writes. No literal has a plus sign. -/
inductive ExponentValue : List Char → ℤ → Prop where
  | none : ExponentValue [] 0
  | plain {e : Char} {ds : List Char} (he : e = 'e' ∨ e = 'E') (hds : ds ∈ oneOrMore digit) :
      ExponentValue (e :: ds) (numeral 10 ds)
  | minus {e : Char} {ds : List Char} (he : e = 'e' ∨ e = 'E') (hds : ds ∈ oneOrMore digit) :
      ExponentValue (e :: '-' :: ds) (-numeral 10 ds)

/-- The decimal number that a text writes: digits, perhaps with a point before, among or behind
them, and perhaps an exponent. -/
inductive DecimalValue : List Char → Decimal → Prop where
  | whole {ds x : List Char} {e : ℤ} (hds : ds ∈ oneOrMore digit) (hx : ExponentValue x e) :
      DecimalValue (ds ++ x) ⟨numeral 10 ds, e⟩
  | pointed {ds fs x : List Char} {e : ℤ} (hds : ds ∈ digit∗) (hfs : fs ∈ digit∗)
      (hne : ds ++ fs ≠ []) (hx : ExponentValue x e) :
      DecimalValue (ds ++ '.' :: (fs ++ x)) ⟨numeral 10 (ds ++ fs), e - fs.length⟩

theorem not_isExponentMark_of_isDigit {c : Char} (h : c.isDigit) : ¬ isExponentMark c := by
  simp only [isExponentMark, decide_eq_true_eq]
  rintro (rfl | rfl | rfl) <;> cases h

/-- The text is not empty, and its last character does not belong to an unfinished exponent. -/
def IsFinished (w : List Char) : Prop := ∃ v c, w = v ++ [c] ∧ ¬ isExponentMark c

theorem IsFinished.append {w : List Char} (h : IsFinished w) (v : List Char) :
    IsFinished (v ++ w) := by
  obtain ⟨u, c, rfl, hc⟩ := h
  exact ⟨v ++ u, c, (List.append_assoc v u [c]).symm, hc⟩

theorem isFinished_of_digits {ds : List Char} (h : ds ∈ oneOrMore digit) : IsFinished ds := by
  obtain ⟨hne, hds⟩ := isClass_digit.mem_oneOrMore.mp h
  refine ⟨ds.dropLast, ds.getLast hne, (List.dropLast_append_getLast hne).symm, ?_⟩
  exact not_isExponentMark_of_isDigit (List.all_eq_true.mp hds _ (List.getLast_mem hne))

theorem ExponentValue.isFinished_append {v x : List Char} {e : ℤ} (h : ExponentValue x e)
    (hv : IsFinished v) : IsFinished (v ++ x) := by
  cases h with
  | none => rwa [List.append_nil]
  | plain _ hds => exact ((isFinished_of_digits hds).append [_]).append v
  | minus _ hds => exact ((isFinished_of_digits hds).append [_, _]).append v

/-- A decimal number ends with a digit or a point. -/
theorem DecimalValue.isFinished {w : List Char} {d : Decimal} (h : DecimalValue w d) :
    IsFinished w := by
  cases h with
  | whole hds hx => exact hx.isFinished_append (isFinished_of_digits hds)
  | @pointed ds fs x e hds hfs hne hx =>
    have hpoint : IsFinished (ds ++ '.' :: fs) := by
      by_cases hnil : fs = []
      · rw [hnil]
        exact ⟨ds, '.', rfl, by decide⟩
      · exact (((isFinished_of_digits (isClass_digit.mem_oneOrMore.mpr
          ⟨hnil, isClass_digit.mem_kstar.mp hfs⟩)).append ['.']).append ds)
    have happend : ds ++ '.' :: (fs ++ x) = ds ++ '.' :: fs ++ x :=
      (List.append_assoc ds ('.' :: fs) x).symm
    rw [happend]
    exact hx.isFinished_append hpoint

/-- An unfinished exponent does not count. -/
theorem IsFinished.finished_append {w m : List Char} (h : IsFinished w)
    (hm : m.all isExponentMark) : finished (w ++ m) = w := by
  obtain ⟨v, c, rfl, hc⟩ := h
  have hdrop : ∀ {u : List Char}, (∀ x ∈ m.reverse, isExponentMark x) →
      (m.reverse ++ c :: u).dropWhile isExponentMark = c :: u := by
    intro u hall
    rw [List.dropWhile_append_of_pos hall, List.dropWhile_cons_of_neg hc]
  rw [finished, List.reverse_append, List.reverse_append, List.reverse_singleton,
    List.singleton_append, hdrop fun x hx => List.all_eq_true.mp hm x (List.mem_reverse.mp hx),
    List.reverse_cons, List.reverse_reverse]

/-- What ends in a finished way inside of a text and an unfinished exponent ends in the text. -/
theorem IsFinished.length_le {w v m : List Char} (h : IsFinished v) (hbegin : v <+: w ++ m)
    (hm : m.all isExponentMark) : v.length ≤ w.length := by
  obtain ⟨u, c, rfl, hc⟩ := h
  by_contra hlong
  rw [List.length_append, List.length_singleton] at hlong
  have hw : w <+: u :=
    List.prefix_of_prefix_length_le (List.prefix_append w m)
      ((List.prefix_append u [c]).trans hbegin) (by omega)
  obtain ⟨v, rfl⟩ := hw
  rw [List.append_assoc, List.prefix_append_right_inj] at hbegin
  have hmem : c ∈ m := hbegin.subset (List.mem_append_right v List.mem_cons_self)
  exact hc (List.all_eq_true.mp hm c hmem)

/-- An exponent of a literal is finished, or it is left out. -/
theorem exists_exponentValue {x : List Char} (h : x ∈ optional exponent) :
    ∃ y m e, x = y ++ m ∧ m.all isExponentMark ∧ ExponentValue y e := by
  rcases h with rfl | h
  · exact ⟨[], [], 0, rfl, rfl, .none⟩
  obtain ⟨e, v, rfl, he, hv⟩ := isClass_exponentMark.mem_mul.mp h
  have he := of_decide_eq_true he
  have hmark : isExponentMark e := by rcases he with rfl | rfl <;> rfl
  obtain ⟨sign, hsign, ds, hds, rfl⟩ := Language.mem_mul.mp hv
  by_cases hnil : ds = []
  · rw [hnil, List.append_nil]
    refine ⟨[], e :: sign, 0, rfl, ?_, .none⟩
    rcases hsign with rfl | rfl <;> exact (Bool.and_eq_true _ _).mpr ⟨hmark, rfl⟩
  · have hds : ds ∈ oneOrMore digit :=
      isClass_digit.mem_oneOrMore.mpr ⟨hnil, isClass_digit.mem_kstar.mp hds⟩
    rcases hsign with rfl | rfl
    · exact ⟨e :: ds, [], _, (List.append_nil _).symm, rfl, .plain he hds⟩
    · exact ⟨e :: '-' :: ds, [], _, (List.append_nil _).symm, rfl, .minus he hds⟩

/-- A float literal is a decimal number with a point, and perhaps an unfinished exponent. -/
theorem exists_decimalValue {w : List Char} (h : w ∈ Pattern.float) :
    ∃ v m d, w = v ++ m ∧ m.all isExponentMark ∧ '.' ∈ v ∧ DecimalValue v d := by
  have hpointed : ∀ ds fs {x : List Char}, ds.all Char.isDigit → fs.all Char.isDigit →
      ds ++ fs ≠ [] → x ∈ optional exponent → ∃ v m d, ds ++ '.' :: (fs ++ x) = v ++ m ∧
        m.all isExponentMark ∧ '.' ∈ v ∧ DecimalValue v d := by
    intro ds fs x hds hfs hne hx
    obtain ⟨y, m, e, rfl, hm, hy⟩ := exists_exponentValue hx
    refine ⟨ds ++ '.' :: (fs ++ y), m, _, by simp, hm, by simp, .pointed ?_ ?_ hne hy⟩
    · exact isClass_digit.mem_kstar.mpr hds
    · exact isClass_digit.mem_kstar.mpr hfs
  cases w with
  | nil => exact absurd h nil_notMem_float
  | cons c v =>
    rcases cons_mem_float.mp h with ⟨ds, f, rfl, hds, hf⟩ | ⟨rfl, d, f, rfl, hd, hf⟩
    · obtain ⟨hc, hds, -⟩ := cons_mem_whole.mp hds
      obtain ⟨fs, hfs, x, hx, rfl⟩ := Language.mem_mul.mp hf
      exact hpointed (c :: ds) fs ((Bool.and_eq_true _ _).mpr ⟨hc, hds⟩)
        (isClass_digit.mem_kstar.mp hfs) (List.cons_ne_nil _ _) hx
    · obtain ⟨fs, hfs, x, hx, rfl⟩ := Language.mem_mul.mp hf
      exact hpointed [] (d :: fs) rfl
        ((Bool.and_eq_true _ _).mpr ⟨hd, isClass_digit.mem_kstar.mp hfs⟩) (List.cons_ne_nil _ _) hx

theorem ExponentValue.exponentOfText? {x : List Char} {e : ℤ} (h : ExponentValue x e) :
    Decimal.exponentOfText? x = some e := by
  cases h with
  | none => rfl
  | @plain c ds he hds =>
    obtain ⟨hne, hds⟩ := isClass_digit.mem_oneOrMore.mp hds
    have hminus : ∀ v, ds ≠ '-' :: v := by
      rintro v rfl
      cases hds
    rw [Decimal.exponentOfText?, if_pos he, if_pos ⟨hne, hds⟩, ofDigits_decimal hds]
    exact hminus
  | minus he hds =>
    obtain ⟨hne, hds⟩ := isClass_digit.mem_oneOrMore.mp hds
    rw [Decimal.exponentOfText?, if_pos he, if_pos ⟨hne, hds⟩, ofDigits_decimal hds]

theorem ExponentValue.not_isDigit {x : List Char} {e : ℤ} (h : ExponentValue x e) :
    ∀ c ∈ x.head?, ¬ c.isDigit := by
  cases h with
  | none => exact fun c hc => by cases hc
  | plain he _ =>
    rintro c ⟨⟩
    rcases he with rfl | rfl <;> decide
  | minus he _ =>
    rintro c ⟨⟩
    rcases he with rfl | rfl <;> decide

theorem ExponentValue.point_notMem {x : List Char} {e : ℤ} (h : ExponentValue x e) : '.' ∉ x := by
  have hdigits : ∀ {ds : List Char}, ds ∈ oneOrMore digit → '.' ∉ ds := fun hds =>
    point_notMem_of_all (isClass_digit.mem_oneOrMore.mp hds).2 (by decide)
  cases h with
  | none => exact List.not_mem_nil
  | plain he hds =>
    rw [List.mem_cons, not_or]
    exact ⟨by rcases he with rfl | rfl <;> decide, hdigits hds⟩
  | minus he hds =>
    rw [List.mem_cons, List.mem_cons, not_or, not_or]
    exact ⟨by rcases he with rfl | rfl <;> decide, by decide, hdigits hds⟩

/-- The program reads a decimal number with a point as what it writes. -/
theorem DecimalValue.ofText? {w : List Char} {d : Decimal} (h : DecimalValue w d)
    (hpoint : '.' ∈ w) : Decimal.ofText? w = some d := by
  have htake : ∀ {ds x : List Char}, ds ∈ digit∗ → (∀ c ∈ x.head?, ¬ c.isDigit) →
      (ds ++ x).takeWhile Char.isDigit = ds ∧ (ds ++ x).dropWhile Char.isDigit = x := by
    intro ds x hds hx
    have hall := List.all_eq_true.mp (isClass_digit.mem_kstar.mp hds)
    rw [List.takeWhile_append_of_pos hall, List.dropWhile_append_of_pos hall]
    cases x with
    | nil => exact ⟨List.append_nil ds, rfl⟩
    | cons c x =>
      rw [List.takeWhile_cons_of_neg (hx c rfl), List.dropWhile_cons_of_neg (hx c rfl)]
      exact ⟨List.append_nil ds, rfl⟩
  cases h with
  | whole hds hx =>
    rcases List.mem_append.mp hpoint with hmem | hmem
    · exact absurd hmem (point_notMem_of_all (isClass_digit.mem_oneOrMore.mp hds).2 (by decide))
    · exact absurd hmem hx.point_notMem
  | @pointed ds fs x e hds hfs hne hx =>
    obtain ⟨hwhole, hrest⟩ := htake (x := '.' :: (fs ++ x)) hds (by rintro c ⟨⟩; decide)
    obtain ⟨hfraction, hexponent⟩ := htake hfs hx.not_isDigit
    have hdigits : ¬ (ds = [] ∧ fs = []) := fun h => hne (List.append_eq_nil_iff.mpr h)
    have hall : (ds ++ fs).all Char.isDigit := by
      rw [List.all_append, isClass_digit.mem_kstar.mp hds, isClass_digit.mem_kstar.mp hfs]
      rfl
    simp only [Decimal.ofText?, hwhole, hrest, hfraction, hexponent, if_neg hdigits,
      hx.exponentOfText?, Option.map_some, ofDigits_decimal hall]

/-- The decimal number that the longest possible beginning of the text writes. -/
def LongestDecimal (w : List Char) (d : Decimal) : Prop :=
  ∃ v, v <+: w ∧ DecimalValue v d ∧
    ∀ v' d', v' <+: w → DecimalValue v' d' → v'.length ≤ v.length

/-- What is left without an unfinished exponent is the longest decimal number of a literal. -/
theorem longestDecimal_iff {w : List Char} (h : w ∈ Pattern.float) {d : Decimal} :
    LongestDecimal w d ↔ Decimal.ofText? (finished w) = some d := by
  obtain ⟨v, m, d₀, rfl, hm, hpoint, hv⟩ := exists_decimalValue h
  have hlongest : ∀ v' d', v' <+: v ++ m → DecimalValue v' d' → v'.length ≤ v.length :=
    fun v' d' hbegin hv' => hv'.isFinished.length_le hbegin hm
  rw [hv.isFinished.finished_append hm]
  constructor
  · rintro ⟨u, hbegin, hu, hmax⟩
    have hlength : u.length = v.length :=
      Nat.le_antisymm (hlongest u d hbegin hu) (hmax v d₀ (List.prefix_append v m) hv)
    have heq : u = v :=
      (List.prefix_of_prefix_length_le hbegin (List.prefix_append v m)
        hlength.le).eq_of_length hlength
    rw [heq] at hu
    exact hu.ofText? hpoint
  · intro hd
    rw [hv.ofText? hpoint] at hd
    cases hd
    exact ⟨v, List.prefix_append v m, hv, hlongest⟩

/-- The double of a float literal is that of its decimal number. -/
theorem float_of_longestDecimal {w : List Char} (h : w ∈ Pattern.float) {d : Decimal}
    (hd : LongestDecimal w d) : Literal.float w = d.toFloat := by
  rw [Literal.float, (longestDecimal_iff h).mp hd]

/-- Every float literal writes a decimal number. -/
theorem exists_longestDecimal {w : List Char} (h : w ∈ Pattern.float) :
    ∃ d, LongestDecimal w d := by
  obtain ⟨v, m, d, rfl, hm, hpoint, hv⟩ := exists_decimalValue h
  refine ⟨d, (longestDecimal_iff h).mpr ?_⟩
  rw [hv.isFinished.finished_append hm]
  exact hv.ofText? hpoint

end Literal

end ArrowCalc
