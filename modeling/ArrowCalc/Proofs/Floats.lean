import ArrowCalc.Proofs.Decimal.Arithmetic
import ArrowCalc.Proofs.Lexeme.Denotation
import ArrowCalc.Proofs.Numbers

/-!
# Float literals

A float literal may end in an exponent without digits. What does not count is cut off from its end
character by character, as long as there is an `e`, an `E` or a minus sign, and without a look at
what is in front. Nevertheless the text that is left is always a complete decimal number, and the
longest one with which the literal begins: a complete number never ends in one of these characters,
and in a literal they stand in a row only where the digits of the exponent are missing.

A complete number is always read, and never as NaN. So the fallback of `Literal.float` is not
reached, and no token of a source carries NaN.

## Main definitions

* `Pattern.decimal` — the complete decimal numbers with a point

## Main results

* `Pattern.mem_decimal_iff` — they are the texts with a point that write a number
* `Literal.finished_spec` — what is left of a literal
* `TokenStream.floats_are_numbers` — float literals and their tokens
-/

namespace ArrowCalc

open Computability Lexeme Pattern

/-! ### Complete numbers -/

namespace Pattern

/-- An exponent with its digits. -/
def finishedExponent : Language Char :=
  (literal "e" + literal "E") * (optional (literal "-") * oneOrMore digit)

/-- A decimal number: digits with a point among or behind them, or a point and digits, and perhaps
an exponent. -/
def decimal : Language Char :=
  (oneOrMore digit * (literal "." * digit∗) + literal "." * oneOrMore digit) *
    optional finishedExponent

theorem mem_finishedExponent_iff {x : List Char} :
    x ∈ optional finishedExponent ↔ ∃ e, Literal.ExponentValue x e := by
  constructor
  · rintro (rfl | h)
    · exact ⟨0, .none⟩
    · obtain ⟨c, v, rfl, hc, hv⟩ := isClass_exponentMark.mem_mul.mp h
      obtain ⟨sign, hsign, ds, hds, rfl⟩ := Language.mem_mul.mp hv
      rcases hsign with rfl | rfl
      · exact ⟨_, .plain (of_decide_eq_true hc) hds⟩
      · exact ⟨_, .minus (of_decide_eq_true hc) hds⟩
  · rintro ⟨e, h⟩
    cases h with
    | none => exact .inl rfl
    | @plain c ds hc hds =>
      refine .inr (isClass_exponentMark.cons_mem_mul.mpr ⟨decide_eq_true hc, ?_⟩)
      exact Language.mem_mul.mpr ⟨[], .inl rfl, ds, hds, rfl⟩
    | @minus c ds hc hds =>
      refine .inr (isClass_exponentMark.cons_mem_mul.mpr ⟨decide_eq_true hc, ?_⟩)
      exact Language.mem_mul.mpr ⟨['-'], .inr rfl, ds, hds, rfl⟩

/-- The digits on the two sides of a point, of which there is at least one. -/
theorem mem_pointed_iff {v : List Char} :
    v ∈ oneOrMore digit * (literal "." * digit∗) + literal "." * oneOrMore digit ↔
      ∃ ds fs, v = ds ++ '.' :: fs ∧ ds ∈ digit∗ ∧ fs ∈ digit∗ ∧ ds ++ fs ≠ [] := by
  have hpoint := isClass_literal "." '.' rfl
  constructor
  · rintro (h | h)
    · obtain ⟨ds, hds, w, hw, rfl⟩ := Language.mem_mul.mp h
      obtain ⟨c, fs, rfl, hc, hfs⟩ := hpoint.mem_mul.mp hw
      obtain rfl := of_decide_eq_true hc
      obtain ⟨hne, hds⟩ := isClass_digit.mem_oneOrMore.mp hds
      exact ⟨ds, fs, rfl, isClass_digit.mem_kstar.mpr hds, hfs, by simp [hne]⟩
    · obtain ⟨c, fs, rfl, hc, hfs⟩ := hpoint.mem_mul.mp h
      obtain rfl := of_decide_eq_true hc
      obtain ⟨hne, hfs⟩ := isClass_digit.mem_oneOrMore.mp hfs
      exact ⟨[], fs, rfl, isClass_digit.mem_kstar.mpr rfl, isClass_digit.mem_kstar.mpr hfs, hne⟩
  · rintro ⟨ds, fs, rfl, hds, hfs, hne⟩
    have hds := isClass_digit.mem_kstar.mp hds
    by_cases hnil : ds = []
    · rw [hnil] at hne ⊢
      refine .inr (hpoint.cons_mem_mul.mpr ⟨rfl, ?_⟩)
      exact isClass_digit.mem_oneOrMore.mpr ⟨hne, isClass_digit.mem_kstar.mp hfs⟩
    · refine .inl (Language.mem_mul.mpr ⟨ds, ?_, '.' :: fs, ?_, rfl⟩)
      · exact isClass_digit.mem_oneOrMore.mpr ⟨hnil, hds⟩
      · exact hpoint.cons_mem_mul.mpr ⟨rfl, hfs⟩

/-- The complete numbers are the texts with a point that write a number. -/
theorem mem_decimal_iff {v : List Char} :
    v ∈ decimal ↔ '.' ∈ v ∧ ∃ d, Literal.DecimalValue v d := by
  rw [decimal, Language.mem_mul]
  constructor
  · rintro ⟨u, hu, x, hx, rfl⟩
    obtain ⟨ds, fs, rfl, hds, hfs, hne⟩ := mem_pointed_iff.mp hu
    obtain ⟨e, hx⟩ := mem_finishedExponent_iff.mp hx
    rw [List.append_assoc, List.cons_append]
    exact ⟨by simp, _, .pointed hds hfs hne hx⟩
  · rintro ⟨hpoint, d, hd⟩
    cases hd with
    | whole hds hx =>
      rcases List.mem_append.mp hpoint with hmem | hmem
      · exact absurd hmem (point_notMem_of_all (isClass_digit.mem_oneOrMore.mp hds).2 (by decide))
      · exact absurd hmem hx.point_notMem
    | @pointed ds fs x e hds hfs hne hx =>
      refine ⟨ds ++ '.' :: fs, mem_pointed_iff.mpr ⟨ds, fs, rfl, hds, hfs, hne⟩, x,
        mem_finishedExponent_iff.mpr ⟨e, hx⟩, ?_⟩
      rw [List.append_assoc, List.cons_append]

end Pattern

/-! ### What is left of a literal -/

namespace Literal

/-- `v` is `w` without the characters `e`, `E` and `-` at its end. -/
def IsTrimmed (v w : List Char) : Prop :=
  ∃ run, w = v ++ run ∧ (∀ c ∈ run, c ∈ ['e', 'E', '-']) ∧ ∀ c ∈ v.getLast?, c ∉ ['e', 'E', '-']

theorem isExponentMark_iff {c : Char} : isExponentMark c ↔ c ∈ ['e', 'E', '-'] := by
  simp only [isExponentMark, decide_eq_true_eq, List.mem_cons, List.not_mem_nil, or_false]

theorem IsFinished.isTrimmed_append {v run : List Char} (h : IsFinished v)
    (hrun : run.all isExponentMark) : IsTrimmed v (v ++ run) := by
  refine ⟨run, rfl, fun c hc => isExponentMark_iff.mp (List.all_eq_true.mp hrun c hc), ?_⟩
  obtain ⟨u, d, rfl, hd⟩ := h
  rw [List.getLast?_concat]
  rintro c ⟨⟩
  exact fun hmem => hd (isExponentMark_iff.mpr hmem)

/-- What is left of a literal is a complete number, and the longest one with which the literal
begins. -/
theorem finished_spec {w : List Char} (h : w ∈ Pattern.float) :
    IsTrimmed (finished w) w ∧ finished w ∈ decimal ∧
      ∀ v, v <+: w → v ∈ decimal → v <+: finished w := by
  obtain ⟨v, run, d, rfl, hrun, hpoint, hv⟩ := exists_decimalValue h
  rw [hv.isFinished.finished_append hrun]
  refine ⟨hv.isFinished.isTrimmed_append hrun, mem_decimal_iff.mpr ⟨hpoint, d, hv⟩, ?_⟩
  intro u hbegins hu
  obtain ⟨-, d', hu⟩ := mem_decimal_iff.mp hu
  have hlength := hu.isFinished.length_le hbegins hrun
  exact List.prefix_of_prefix_length_le hbegins (List.prefix_append v run) hlength

/-- A complete number is read. -/
theorem exists_ofText?_of_mem_decimal {v : List Char} (h : v ∈ decimal) :
    ∃ d, DecimalValue v d ∧ Decimal.ofText? v = some d := by
  obtain ⟨hpoint, d, hd⟩ := mem_decimal_iff.mp h
  exact ⟨d, hd, hd.ofText? hpoint⟩

theorem isNaN_toFloat (d : Decimal) : d.toFloat.isNaN = false := by
  rw [← Bool.not_eq_true, Number.isNaN_iff]
  exact d.toFloat_nearest.ne_notANumber

theorem float_eq_toFloat {w : List Char} {d : Decimal}
    (h : Decimal.ofText? (finished w) = some d) : Literal.float w = d.toFloat := by
  rw [Literal.float, h]

end Literal

/-! ### Tokens -/

namespace TokenStream

open Literal

/-- The float tokens of a source are those of its float literals. -/
theorem exists_literal_of_kind_float {source : String} {t : Token}
    (ht : t ∈ (ofSource source).tokens) (hkind : t.kind = .float) :
    ∃ w ∈ Pattern.float, t.payload = some (.float (Literal.float w)) := by
  obtain ⟨x, hx, place, htoken⟩ := exists_lexeme_of_mem_ofSource ht
  have hcls := Cursor.cls_of_token? htoken (by rw [hkind]; decide)
  have hgenuine := (lexes_iff.mpr rfl).isGenuine x hx
  obtain ⟨cls, w⟩ := x
  obtain rfl : cls = .token .float := hcls.trans (congrArg Class.token hkind)
  cases htoken
  exact ⟨w, hgenuine.mem_pattern, rfl⟩

/-- **Float literals.** The text that a float literal is read from is the literal without the
characters `e`, `E` and `-` at its end. It is the longest complete number with which the literal
begins, and it is read as the number that it writes. So no literal is NaN, and no token of a source
carries NaN. -/
theorem floats_are_numbers :
    (∀ w ∈ Pattern.float, IsTrimmed (finished w) w ∧ finished w ∈ decimal ∧
      (∀ v, v <+: w → v ∈ decimal → v <+: finished w) ∧
      ∃ d, DecimalValue (finished w) d ∧ Decimal.ofText? (finished w) = some d ∧
        Literal.float w = d.toFloat ∧ (Literal.float w).isNaN = false) ∧
      (∀ v ∈ decimal, ∃ d, DecimalValue v d ∧ Decimal.ofText? v = some d) ∧
      ∀ source, ∀ t ∈ (ofSource source).tokens, t.kind = .float →
        ∃ w ∈ Pattern.float, t.payload = some (.float (Literal.float w)) ∧
          (Literal.float w).isNaN = false := by
  have hnumber : ∀ w ∈ Pattern.float, ∃ d, DecimalValue (finished w) d ∧
      Decimal.ofText? (finished w) = some d ∧ Literal.float w = d.toFloat ∧
        (Literal.float w).isNaN = false := by
    intro w hw
    obtain ⟨d, hd, hread⟩ := exists_ofText?_of_mem_decimal (finished_spec hw).2.1
    have hfloat := float_eq_toFloat hread
    exact ⟨d, hd, hread, hfloat, by rw [hfloat]; exact isNaN_toFloat d⟩
  refine ⟨fun w hw => ?_, fun v => exists_ofText?_of_mem_decimal, fun source t ht hkind => ?_⟩
  · obtain ⟨htrimmed, hdecimal, hlongest⟩ := finished_spec hw
    exact ⟨htrimmed, hdecimal, hlongest, hnumber w hw⟩
  · obtain ⟨w, hw, hpayload⟩ := exists_literal_of_kind_float ht hkind
    obtain ⟨d, -, -, -, hnan⟩ := hnumber w hw
    exact ⟨w, hw, hpayload, hnan⟩

/-- The literal `1.5e-` is read from `1.5`, and gives a token of all its five characters. -/
theorem floats_are_numbers_unfinished :
    "1.5e-".toList ∈ Pattern.float ∧ finished "1.5e-".toList = "1.5".toList ∧
      "1.".toList ∈ decimal ∧ "1.".toList <+: finished "1.5e-".toList ∧
      Decimal.ofText? "1.5".toList = some ⟨15, -1⟩ ∧
      ∃ t ∈ (ofSource "1.5e-").tokens, t.kind = .float ∧ t.span = ⟨1, 1, 6⟩ ∧
        ∃ w ∈ Pattern.float, t.payload = some (.float (Literal.float w)) ∧
          (Literal.float w).isNaN = false := by
  have hfloat : "1.5e-".toList ∈ Pattern.float := by
    refine cons_mem_float.mpr (.inl ⟨[], "5e-".toList, rfl, cons_mem_whole.mpr ⟨rfl, rfl, ?_⟩, ?_⟩)
    · exact fun h => absurd h (by decide)
    · refine Language.mem_mul.mpr
        ⟨['5'], isClass_digit.mem_kstar.mpr rfl, "e-".toList, .inr ?_, rfl⟩
      refine isClass_exponentMark.cons_mem_mul.mpr ⟨rfl, Language.mem_mul.mpr ?_⟩
      exact ⟨['-'], .inr rfl, [], isClass_digit.mem_kstar.mpr rfl, rfl⟩
  have hdecimal : "1.".toList ∈ decimal := by
    refine Language.mem_mul.mpr ⟨"1.".toList, mem_pointed_iff.mpr ?_, [], .inl rfl, rfl⟩
    exact ⟨['1'], [], rfl, isClass_digit.mem_kstar.mpr rfl, isClass_digit.mem_kstar.mpr rfl,
      List.cons_ne_nil _ _⟩
  have hmem : ⟨.float, some (.float (Literal.float "1.5e-".toList)), ⟨1, 1, 6⟩⟩ ∈
      (ofSource "1.5e-").tokens := by
    have hmatches : Class.Matches (.token .float) "1.5e-".toList := hfloat
    show _ ∈ (readings .start (cut "1.5e-".toList)).map Reading.token
    rw [cut_of_matches hmatches (by decide)]
    exact List.mem_singleton_self _
  obtain ⟨hliterals, -, hsources⟩ := floats_are_numbers
  have hbegins := (hliterals _ hfloat).2.2.1 _ ⟨"5e-".toList, rfl⟩ hdecimal
  exact ⟨hfloat, rfl, hdecimal, hbegins, by decide, _, hmem, rfl, rfl, hsources _ _ hmem rfl⟩

end TokenStream

end ArrowCalc
