import ArrowCalc.Mode
import ArrowCalc.Proofs.Decimal.Integral
import ArrowCalc.Proofs.Integers

/-!
# Integer literals evaluate to themselves

A source that is one integer literal goes through every stage: it is cut into one lexeme, its token
carries the number that it writes, the tree is that number, its value is the double, and the text is
the number in decimal. Up to `2 ^ 53` nothing is lost on the way, in whichever radix the literal is
written. A sign in front of the literal is an operator, and is applied to the double.

## Main results

* `Lexeme.cut_dash_cons` — a minus sign in front of a digit is a lexeme of its own
* `Literal.Writes.parse_eq`, `Literal.Writes.parse_dash_eq` — the trees of a literal and of a
  negated one
* `Literal.writes_toDigits` — decimal numerals are literals
* `Mode.integers_evaluate_to_themselves` — the values of literals and negated literals
-/

namespace ArrowCalc

open Lexeme Pattern Grammar Literal

/-! ### Cutting -/

/-- A minus sign in front of a digit is a lexeme of its own. -/
theorem Lexeme.cut_dash_cons {d : Char} (hd : d.isDigit) (rest : List Char) :
    cut ('-' :: d :: rest) = ⟨.token .dash, ['-']⟩ :: cut (d :: rest) := by
  have hscan : scan '-' (d :: rest) = (.token .dash, 0) := by
    obtain ⟨k, hlow, hhigh, rfl⟩ := Decimal.exists_ofNat_eq hd
    interval_cases k <;> rfl
  rw [cut_cons, hscan]
  rfl

namespace Literal

variable {w : List Char} {n : ℕ}

theorem Writes.mem_integer (h : Writes w n) : w ∈ integer := by
  cases h with
  | decimal hw => exact .inl (.inl hw)
  | octal hds =>
    exact .inl (.inr ((isClass_literal "0" '0' rfl).cons_mem_mul.mpr ⟨by decide, hds⟩))
  | hex hx hds =>
    refine .inr ((isClass_literal "0" '0' rfl).cons_mem_mul.mpr ⟨by decide, ?_⟩)
    refine isClass_hexMark.cons_mem_mul.mpr ⟨decide_eq_true hx, ?_⟩
    exact isClass_hexDigit.mem_kstar.mpr (isClass_hexDigit.mem_oneOrMore.mp hds).2

theorem Writes.cut_eq (h : Writes w n) : cut w = [⟨.token .int, w⟩] :=
  cut_of_matches h.mem_integer (by decide)

/-- A literal begins with a digit. -/
theorem Writes.exists_cons (h : Writes w n) : ∃ d rest, w = d :: rest ∧ d.isDigit := by
  have hmatches : Class.Matches (.token .int) w := h.mem_integer
  obtain ⟨d, rest, rfl⟩ := List.exists_cons_of_ne_nil hmatches.ne_nil
  refine ⟨d, rest, rfl, ?_⟩
  rcases cons_mem_integer.mp h.mem_integer with ⟨hd, -⟩ | ⟨rfl, -⟩ | ⟨rfl, -⟩
  · exact hd
  · rfl
  · rfl

/-! ### Tokens and trees -/

/-- The token of a literal is the integer that it writes. -/
theorem Writes.isInteger (h : Writes w n) (hfits : n < 2 ^ 63) {cur : Cursor} {t : Token}
    (ht : Gives cur w t) : IsInteger [t] n := by
  have hint := (int?_eq_some_iff h.mem_integer).mpr ⟨h, hfits⟩
  cases ht with
  | @int n' h' hfits' =>
    have hint' := (int?_eq_some_iff h.mem_integer).mpr ⟨h', hfits'⟩
    obtain rfl : n' = n := Option.some.inj (hint'.symm.trans hint)
    exact ⟨_, rfl, rfl, rfl⟩
  | unknown hrange => exact absurd (hrange n h) (Nat.not_le_of_lt hfits)

theorem derives_signed {ts : List Token} {value : ℤ} (h : IsInteger ts value) :
    Derives .plain .signed ts (.int value) :=
  .ofPower (.ofApplication (.ofPrimary (.int h)))

/-- The program with one statement. -/
theorem program_of_signed {ts : List Token} {e : Expr} (h : Derives .plain .signed ts e) :
    Program .plain ts [e] := by
  have hprogram : Program .plain (ts ++ []) [e] :=
    .last (.ofSum (.ofProduct (.ofSigned h))) fun _ ht => absurd ht List.not_mem_nil
  rwa [List.append_nil] at hprogram

theorem Writes.parse_eq (h : Writes w n) (hfits : n < 2 ^ 63) :
    Expr.parse (String.ofList w) = .block [.int n] := by
  have hcut : cut (String.ofList w).toList = [] ++ ⟨.token .int, w⟩ :: [] := by
    rw [String.toList_ofList]
    exact h.cut_eq
  obtain ⟨-, t, hgives, htokens⟩ := TokenStream.exists_gives_of_cut hcut rfl
  rw [Expr.parse_eq_block_iff, htokens]
  exact program_of_signed (derives_signed (h.isInteger hfits hgives))

theorem Writes.parse_dash_eq (h : Writes w n) (hfits : n < 2 ^ 63) :
    Expr.parse (String.ofList ('-' :: w)) = .block [.unary .minus (.int n)] := by
  have hcut : cut (String.ofList ('-' :: w)).toList =
      [⟨.token .dash, ['-']⟩] ++ ⟨.token .int, w⟩ :: [] := by
    obtain ⟨d, rest, hcons, hd⟩ := h.exists_cons
    rw [String.toList_ofList, hcons, cut_dash_cons hd, ← hcons, h.cut_eq]
    rfl
  obtain ⟨-, t, hgives, htokens⟩ := TokenStream.exists_gives_of_cut hcut rfl
  rw [Expr.parse_eq_block_iff, htokens]
  exact program_of_signed (.sign rfl (derives_signed (h.isInteger hfits hgives)))

/-- Decimal numerals are literals. -/
theorem writes_toDigits (n : ℕ) : Writes (Nat.toDigits 10 n) n := by
  obtain ⟨c, cs, htext, hzero, -⟩ := Decimal.exists_toDigits_cons n
  have hall : ∀ d ∈ c :: cs, d.isDigit := fun d hd =>
    Nat.isDigit_of_mem_toDigits (by norm_num) le_rfl (htext ▸ hd)
  obtain ⟨hc, hcs⟩ := List.forall_mem_cons.mp hall
  have hwhole : Nat.toDigits 10 n ∈ whole := by
    rw [htext]
    exact cons_mem_whole.mpr ⟨hc, List.all_eq_true.mpr hcs, hzero⟩
  have hvalue : numeral 10 (Nat.toDigits 10 n) = n := by
    rw [← ofDigits_decimal (List.all_eq_true.mpr (htext ▸ hall)), Decimal.ofDigits_toDigits]
  have hwrites := Writes.decimal hwhole
  rwa [hvalue] at hwrites

end Literal

/-! ### Values -/

/-- **Integer literals evaluate to themselves.** Let `n` be at most `2 ^ 53`. Its decimal numeral is
a literal that writes `n`, and the value of every literal that writes `n`, in any radix, has the
decimal numeral for its text. With a minus sign in front, the text is that of `-n`. -/
theorem Mode.integers_evaluate_to_themselves (depth : ℕ) {n : ℕ} (hn : n ≤ 2 ^ 53) :
    Writes n.repr.toList n ∧ ∀ w, Writes w n →
      Mode.eval.run (depth + 3) (String.ofList w) = .ok n.repr ∧
      Mode.eval.run (depth + 3) (String.ofList ('-' :: w)) = .ok (-(n : ℤ)).repr := by
  have hfits : n < 2 ^ 63 := hn.trans_lt (by norm_num)
  refine ⟨?_, fun w hw => ⟨?_, ?_⟩⟩
  · rw [Nat.toList_repr]
    exact writes_toDigits n
  · rw [run, hw.parse_eq hfits, ← Number.text_ofNat hn]
    rfl
  · rw [run, hw.parse_dash_eq hfits, ← Number.text_neg_ofNat hn]
    rfl

/-- The largest of these integers, in radix sixteen and with leading zeros. -/
theorem Mode.integers_evaluate_to_themselves_hex :
    (2 ^ 53 ≤ 2 ^ 53) ∧ Writes "0X0020000000000000".toList (2 ^ 53) ∧
      Mode.eval.run 3 "0X0020000000000000" = .ok "9007199254740992" ∧
      Mode.eval.run 3 "-0X0020000000000000" = .ok "-9007199254740992" := by
  have hdigits : "0020000000000000".toList ∈ oneOrMore hexDigit :=
    isClass_hexDigit.mem_oneOrMore.mpr ⟨List.cons_ne_nil _ _, rfl⟩
  have hwrites : Writes "0X0020000000000000".toList (2 ^ 53) := .hex (.inr rfl) hdigits
  obtain ⟨hvalue, hnegative⟩ := (integers_evaluate_to_themselves 0 le_rfl).2 _ hwrites
  exact ⟨le_rfl, hwrites, hvalue, hnegative⟩

end ArrowCalc
