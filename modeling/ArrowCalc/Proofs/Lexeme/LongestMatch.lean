import ArrowCalc.Proofs.Lexeme.Patterns

/-!
# Longest match

A text is cut at the longest beginning that has a pattern, again and again. A text with the pattern
of a keyword is that keyword and no word, and where nothing has a pattern, one character is taken.
This is said here with the patterns alone, and the scanner, which looks at one character after the
other, is shown to do it.

## Why the scanner may go on greedily

A longest match is a statement about all beginnings of a text, while the scanner never goes back. It
takes a run of characters as long as it lasts and then asks what may follow. For arbitrary patterns
this is wrong: behind a longer run the rest of the pattern may fail, where behind a shorter one it
would not. It is right here because what follows a repetition in a pattern never begins with a
character that could be repeated (`LongestIn.kstar_mul`). A digit is no point, and neither is one of
the letters that mark an exponent.

The scanner is built like the patterns, so that the proof follows it: a repetition is a run, a
choice is a test of the next character, and each branch has the longest match of its part of the
pattern.

## From one lexeme to all

What begins with a given character is collected in one language, and the scanner is shown to find
its longest match there (`longest_scan`). The class of the match is then unique by what is known
about the overlap of patterns, and the lexemes of a text follow by induction: every lexeme takes at
least one character off.

## Main definitions

* `Pattern.LongestIn` — the longest beginning of a text in a language
* `Lexeme.IsFirst`, `Lexeme.Lexes` — the first lexeme of a text, and all of them

## Main results

* `Lexeme.isFirst_iff` — the scanner finds the first lexeme
* `Lexeme.lexes_iff` — a text is cut in one way only, and this is how it is cut
-/

namespace ArrowCalc

open Computability Lexeme

namespace Pattern

/-! ### Longest beginnings in a language

The rules for the operations on languages. They are stated for the beginning of a text, since what
is behind the match must not matter. -/

/-- Among the beginnings of the text, the one with `n` characters is the longest in the language. -/
structure LongestIn (l : Language Char) (cs : List Char) (n : ℕ) : Prop where
  mem : cs.take n ∈ l
  le_length : n ≤ cs.length
  length_le : ∀ w ∈ l, w <+: cs → w.length ≤ n

theorem runLength_le (p : Char → Bool) (cs : List Char) : runLength p cs ≤ cs.length :=
  (List.takeWhile_prefix p).length_le

/-- A run goes as far as the characters do. -/
theorem length_le_runLength {p : Char → Bool} {w cs : List Char} (hw : w.all p) (h : w <+: cs) :
    w.length ≤ runLength p cs := by
  obtain ⟨rest, rfl⟩ := h
  rw [runLength, List.takeWhile_append_of_pos (List.all_eq_true.mp hw), List.length_append]
  exact Nat.le_add_right _ _

/-- A run ends in front of a character that does not belong to it. -/
theorem runLength_append_cons {p : Char → Bool} {w : List Char} {c : Char} (hw : w.all p)
    (hc : ¬ p c) (rest : List Char) : runLength p (w ++ c :: rest) = w.length := by
  rw [runLength, List.takeWhile_append_of_pos (List.all_eq_true.mp hw),
    List.takeWhile_cons_of_neg hc, List.append_nil]

theorem all_take_runLength (p : Char → Bool) (cs : List Char) :
    (cs.take (runLength p cs)).all p := by
  rw [take_runLength]
  exact List.all_takeWhile

section LongestIn

variable {l m : Language Char} {p : Char → Bool} {cs : List Char} {n : ℕ}

/-- A repetition is matched by the run of its characters. -/
theorem longestIn_kstar (hl : IsClass l p) (cs : List Char) :
    LongestIn l∗ cs (runLength p cs) where
  mem := hl.mem_kstar.mpr (all_take_runLength p cs)
  le_length := runLength_le p cs
  length_le _ hw hbegin := length_le_runLength (hl.mem_kstar.mp hw) hbegin

/-- A run of characters, and what follows it. What follows must not begin with a character of the
run, since otherwise a shorter run could lead to a longer match. -/
theorem LongestIn.kstar_mul (hl : IsClass l p) (hm : ∀ c v, c :: v ∈ m → ¬ p c)
    (h : LongestIn m (cs.drop (runLength p cs)) n) :
    LongestIn (l∗ * m) cs (runLength p cs + n) where
  mem := by
    rw [List.take_add]
    exact Language.append_mem_mul (hl.mem_kstar.mpr (all_take_runLength p cs)) h.mem
  le_length := by
    have hlength := h.le_length
    have hrun := runLength_le p cs
    rw [List.length_drop] at hlength
    omega
  length_le w hw hbegin := by
    obtain ⟨a, ha, b, hb, rfl⟩ := Language.mem_mul.mp hw
    have ha := hl.mem_kstar.mp ha
    cases b with
    | nil =>
      rw [List.append_nil] at hbegin ⊢
      exact Nat.le_add_right_of_le (length_le_runLength ha hbegin)
    | cons c v =>
      -- the run cannot go on with `c`, so it is `a`
      obtain ⟨rest, rfl⟩ := hbegin
      have hrun : runLength p (a ++ c :: (v ++ rest)) = a.length :=
        runLength_append_cons ha (hm c v hb) _
      have hcs : a ++ c :: v ++ rest = a ++ c :: (v ++ rest) := List.append_assoc _ _ _
      rw [hcs, hrun, List.drop_left] at h
      rw [hcs, hrun, List.length_append]
      exact Nat.add_le_add_left (h.length_le _ hb (List.prefix_append (c :: v) rest)) _

/-- A character, and what follows it. -/
theorem LongestIn.cons_mul (hl : IsClass l p) {c : Char} (hc : p c) (h : LongestIn m cs n) :
    LongestIn (l * m) (c :: cs) (n + 1) where
  mem := hl.cons_mem_mul.mpr ⟨hc, h.mem⟩
  le_length := Nat.succ_le_succ h.le_length
  length_le w hw hbegin := by
    obtain ⟨d, v, rfl, -, hv⟩ := hl.mem_mul.mp hw
    exact Nat.succ_le_succ (h.length_le v hv (List.cons_prefix_cons.mp hbegin).2)

/-- Of two languages the one with the longer match decides. -/
theorem LongestIn.add (h : LongestIn l cs n) (hm : ∀ w ∈ m, w <+: cs → w.length ≤ n) :
    LongestIn (l + m) cs n where
  mem := .inl h.mem
  le_length := h.le_length
  length_le w hw hbegin := by
    rcases hw with hw | hw
    · exact h.length_le w hw hbegin
    · exact hm w hw hbegin

theorem LongestIn.optional (h : LongestIn l cs n) : LongestIn (optional l) cs n := by
  have hsum : LongestIn (l + 1) cs n := h.add (by rintro w rfl _; exact Nat.zero_le n)
  rwa [add_comm] at hsum

/-- What cannot begin as the text does is left out. -/
theorem longestIn_optional_of_not (hl : ∀ v ∈ l, ¬ v <+: cs) : LongestIn (optional l) cs 0 where
  mem := .inl rfl
  le_length := Nat.zero_le _
  length_le w hw hbegin := by
    rcases hw with rfl | hw
    · exact Nat.le_refl 0
    · exact absurd hbegin (hl w hw)

/-- Texts that begin with a character of a class are no beginning of other texts. -/
theorem IsClass.not_prefix_of_mem_mul (hl : IsClass l p) {w : List Char} (hw : w ∈ l * m)
    (hcs : ∀ c rest, cs = c :: rest → ¬ p c) : ¬ w <+: cs := by
  obtain ⟨c, v, rfl, hc, -⟩ := hl.mem_mul.mp hw
  rintro ⟨rest, rfl⟩
  exact hcs c (v ++ rest) rfl hc

/-- A repetition of a class is empty in front of other characters. -/
theorem IsClass.length_le_of_mem_kstar (hl : IsClass l p) {w : List Char} (hw : w ∈ l∗)
    (hbegin : w <+: cs) (hcs : ∀ c rest, cs = c :: rest → ¬ p c) : w.length ≤ n := by
  cases w with
  | nil => exact Nat.zero_le n
  | cons c v =>
    obtain ⟨rest, rfl⟩ := hbegin
    have hc := (List.all_eq_true.mp (hl.mem_kstar.mp hw)) c List.mem_cons_self
    exact absurd hc (hcs c (v ++ rest) rfl)

end LongestIn

/-! ### Exponents, fractions and decimal points

An exponent needs its letter, and everything else in it may be missing. In front of the end of a
text or of another character it is left out altogether. -/

theorem exponentLength_signed {e : Char} (he : e = 'e' ∨ e = 'E') (digits : List Char) :
    exponentLength (e :: '-' :: digits) = runLength Char.isDigit digits + 1 + 1 := by
  rw [exponentLength, if_pos he, Nat.add_comm]

theorem exponentLength_unsigned {e : Char} (he : e = 'e' ∨ e = 'E') {rest : List Char}
    (hrest : ∀ digits, rest ≠ '-' :: digits) :
    exponentLength (e :: rest) = runLength Char.isDigit rest + 1 := by
  rw [exponentLength, if_pos he, Nat.add_comm]
  exact hrest

/-- With the sign or without it: a digit is no minus sign, so the first character behind the letter
tells which. -/
theorem longestIn_exponent (cs : List Char) :
    LongestIn (optional exponent) cs (exponentLength cs) := by
  have hminus := isClass_literal "-" '-' rfl
  have hsign : optional (literal "-") * digit∗ = digit∗ + literal "-" * digit∗ := by
    rw [optional, add_mul, one_mul]
  rw [exponent, hsign]
  cases cs with
  | nil =>
    exact longestIn_optional_of_not fun v hv =>
      isClass_exponentMark.not_prefix_of_mem_mul hv fun c rest h => by cases h
  | cons e rest =>
    by_cases he : e = 'e' ∨ e = 'E'
    · refine LongestIn.optional ?_
      by_cases hsigned : ∃ digits, rest = '-' :: digits
      · obtain ⟨digits, rfl⟩ := hsigned
        have hdigits := LongestIn.cons_mul hminus (decide_eq_true rfl)
          (longestIn_kstar isClass_digit digits)
        have hsum := hdigits.add fun w (hw : w ∈ digit∗) hbegin =>
          isClass_digit.length_le_of_mem_kstar hw hbegin fun c rest h => by
            cases h
            decide
        rw [exponentLength_signed he, add_comm (digit∗)]
        exact LongestIn.cons_mul isClass_exponentMark (decide_eq_true he) hsum
      · rw [exponentLength_unsigned he fun digits h => hsigned ⟨digits, h⟩]
        refine LongestIn.cons_mul isClass_exponentMark (decide_eq_true he) ?_
        refine (longestIn_kstar isClass_digit rest).add fun w hw hbegin => ?_
        refine absurd hbegin (hminus.not_prefix_of_mem_mul hw fun c digits h hc => ?_)
        exact hsigned ⟨digits, by rw [h, of_decide_eq_true hc]⟩
    · have hzero : exponentLength (e :: rest) = 0 := if_neg he
      rw [hzero]
      refine longestIn_optional_of_not fun v hv =>
        isClass_exponentMark.not_prefix_of_mem_mul hv fun c rest h => ?_
      obtain ⟨rfl, -⟩ := List.cons.inj h
      rwa [decide_eq_true_iff]

theorem not_isDigit_of_cons_mem_optional_exponent {c : Char} {v : List Char}
    (h : c :: v ∈ optional exponent) : ¬ c.isDigit := by
  rcases h with h | h
  · cases h
  · have hc := of_decide_eq_true (isClass_exponentMark.cons_mem_mul.mp h).1
    rcases hc with rfl | rfl <;> decide

/-- The digits behind a point, and an exponent. An exponent does not begin with a digit. -/
theorem longestIn_fraction (cs : List Char) : LongestIn fraction cs (fractionLength cs) :=
  LongestIn.kstar_mul isClass_digit (fun _ _ => not_isDigit_of_cons_mem_optional_exponent)
    (longestIn_exponent _)

theorem isClass_point : IsClass (literal ".") (· = '.') := isClass_literal "." '.' rfl

theorem longestIn_pointed (cs : List Char) :
    LongestIn (literal "." * fraction) ('.' :: cs) (fractionLength cs + 1) :=
  LongestIn.cons_mul isClass_point rfl (longestIn_fraction cs)

end Pattern

open Pattern

namespace Lexeme

/-! ### The scanner

One lemma for each branch of the scanner. In each of them the first character is fixed, and the
patterns that begin with it are put together in one language. -/

/-- The longest text with a pattern that begins with `c` takes `n` more characters of `rest`. -/
structure Longest (c : Char) (rest : List Char) (cls : Class) (n : ℕ) : Prop where
  spelling : Spelling cls c (rest.take n)
  le_length : n ≤ rest.length
  length_le : ∀ cls' w, Spelling cls' c w → w <+: rest → w.length ≤ n

/-- The patterns of the texts that begin with `c` may be put together in one language. -/
theorem Longest.of_longestIn {l : Language Char} {c : Char} {rest : List Char} {cls : Class} {n : ℕ}
    (h : LongestIn l rest n) (hl : ∀ cls' w, Spelling cls' c w → w ∈ l)
    (hspelling : Spelling cls c (rest.take n)) : Longest c rest cls n where
  spelling := hspelling
  le_length := h.le_length
  length_le cls' w hw hbegin := h.length_le w (hl cls' w hw) hbegin

section Scanner

variable {c : Char} {w : List Char} {cls : Class}

/-- Only blanks begin with a blank. -/
theorem Spelling.all_isBlank (h : Spelling cls c w) (hc : isBlank c) : w.all isBlank := by
  cases h with
  | blank _ hw => exact hw
  | word hletter _ => exact absurd hc (not_isBlank_of_isLetter hletter)
  | keyword h => exact absurd hc (not_isBlank_of_isLetter (letters_of_mem_keywords h).1)
  | decimal hdigit _ _ => exact absurd hc (not_isBlank_of_isDigit hdigit)
  | octal _ => cases hc
  | hex _ _ => cases hc
  | float hdigit _ _ _ => exact absurd hc (not_isBlank_of_isDigit hdigit)
  | point _ _ => cases hc
  | symbol h => exact absurd hc (punctuation_of_mem_symbols h).1

/-- Only words and keywords begin with a letter. -/
theorem Spelling.all_isAlphanum (h : Spelling cls c w) (hc : isLetter c) :
    w.all Char.isAlphanum := by
  cases h with
  | blank hblank _ => exact absurd hblank (not_isBlank_of_isLetter hc)
  | word _ hw => exact hw
  | keyword h => exact (letters_of_mem_keywords h).2
  | decimal hdigit _ _ => exact absurd hc (not_isLetter_of_isDigit hdigit)
  | octal _ => cases hc
  | hex _ _ => cases hc
  | float hdigit _ _ _ => exact absurd hc (not_isLetter_of_isDigit hdigit)
  | point _ _ => cases hc
  | symbol h => exact absurd hc (punctuation_of_mem_symbols h).2.1

/-- What follows a digit in a number. -/
theorem Spelling.of_isDigit (h : Spelling cls c w) (hc : c.isDigit) :
    (c ≠ '0' ∧ w.all Char.isDigit) ∨ (c = '0' ∧ w.all isOctDigit) ∨
      (c = '0' ∧ ∃ x v, w = x :: v ∧ (x = 'x' ∨ x = 'X') ∧ v.all isHexDigit) ∨
      (∃ ds f, w = ds ++ '.' :: f ∧ ds.all Char.isDigit ∧ (c = '0' → ds = []) ∧ f ∈ fraction) := by
  cases h with
  | blank hblank _ => exact absurd hblank (not_isBlank_of_isDigit hc)
  | word hletter _ => exact absurd hletter (not_isLetter_of_isDigit hc)
  | keyword h => exact absurd (letters_of_mem_keywords h).1 (not_isLetter_of_isDigit hc)
  | decimal _ hzero hw => exact .inl ⟨hzero, hw⟩
  | octal hw => exact .inr (.inl ⟨rfl, hw⟩)
  | hex hx hw => exact .inr (.inr (.inl ⟨rfl, _, _, rfl, hx, hw⟩))
  | float _ hds hzero hf => exact .inr (.inr (.inr ⟨_, _, rfl, hds, hzero, hf⟩))
  | point _ _ => cases hc
  | symbol h => exact absurd hc (punctuation_of_mem_symbols h).2.2

variable (rest : List Char)

theorem longest_blanks (hc : isBlank c) : Longest c rest .blank (runLength isBlank rest) :=
  .of_longestIn (longestIn_kstar isClass_blank rest)
    (fun _ _ h => isClass_blank.mem_kstar.mpr (h.all_isBlank hc))
    (.blank hc (all_take_runLength isBlank rest))

theorem mem_of_lookup_eq_some {table : List (List Char × TokenKind)} {kind : TokenKind}
    (h : table.lookup w = some kind) : (w, kind) ∈ table := by
  obtain ⟨before, after, rfl, -⟩ := List.lookup_eq_some_iff.mp h
  exact List.mem_append_right before List.mem_cons_self

/-- A word is taken whole before it is looked up, so that `lets` is a name and not a keyword with a
letter behind it. -/
theorem longest_word (hc : isLetter c) :
    Longest c rest
      (.token ((keywords.lookup (c :: rest.take (runLength Char.isAlphanum rest))).getD .ident))
      (runLength Char.isAlphanum rest) := by
  refine .of_longestIn (longestIn_kstar isClass_alphanumeric rest)
    (fun _ _ h => isClass_alphanumeric.mem_kstar.mpr (h.all_isAlphanum hc)) ?_
  cases h : keywords.lookup (c :: rest.take (runLength Char.isAlphanum rest)) with
  | none => exact .word hc (all_take_runLength Char.isAlphanum rest)
  | some kind =>
    exact .keyword (mem_of_lookup_eq_some h)

/-- A number that does not begin with zero: digits, and perhaps a point and a fraction. -/
theorem longest_number_of_ne (hc : c.isDigit) (hzero : c ≠ '0') :
    Longest c rest (.token (number c rest).1) (number c rest).2 := by
  -- every way to spell a token from here on has this shape, since there is no zero in front
  have hl : ∀ cls w, Spelling cls c w → w ∈ digit∗ * optional (literal "." * fraction) := by
    intro cls w h
    rcases h.of_isDigit hc with ⟨-, hw⟩ | ⟨hz, -⟩ | ⟨hz, -⟩ | ⟨ds, f, rfl, hds, -, hf⟩
    · exact Language.mem_mul.mpr
        ⟨w, isClass_digit.mem_kstar.mpr hw, [], .inl rfl, List.append_nil w⟩
    · exact absurd hz hzero
    · exact absurd hz hzero
    · exact Language.append_mem_mul (isClass_digit.mem_kstar.mpr hds)
        (.inr (isClass_point.cons_mem_mul.mpr ⟨rfl, hf⟩))
  have hm : ∀ d v, d :: v ∈ optional (literal "." * fraction) → ¬ d.isDigit := by
    rintro d v (h | h)
    · cases h
    · rw [of_decide_eq_true (isClass_point.cons_mem_mul.mp h).1]
      decide
  have hdigits := all_take_runLength Char.isDigit rest
  simp only [number, if_neg hzero]
  split
  · next f hf =>
    have hlong := LongestIn.kstar_mul isClass_digit hm (hf ▸ (longestIn_pointed f).optional)
    rw [Nat.add_assoc, Nat.add_comm 1]
    refine .of_longestIn hlong hl ?_
    rw [List.take_add, hf, List.take_succ_cons]
    exact .float hc hdigits (fun h => absurd h hzero) (longestIn_fraction f).mem
  · next hpoint =>
    have hnone : LongestIn (optional (literal "." * fraction))
        (rest.drop (runLength Char.isDigit rest)) 0 :=
      longestIn_optional_of_not fun v hv =>
        isClass_point.not_prefix_of_mem_mul hv fun d f hd hdec =>
          hpoint f (by rw [hd, of_decide_eq_true hdec])
    exact .of_longestIn (LongestIn.kstar_mul isClass_digit hm hnone) hl (.decimal hc hzero hdigits)

/-- What follows a zero in a number. -/
theorem Spelling.of_zero (h : Spelling cls '0' w) :
    w ∈ octalDigit∗ ∨ w ∈ (literal "x" + literal "X") * hexDigit∗ ∨ w ∈ literal "." * fraction := by
  rcases h.of_isDigit rfl with ⟨hz, -⟩ | ⟨-, hw⟩ | ⟨-, x, v, rfl, hx, hv⟩ |
    ⟨ds, f, rfl, -, hnil, hf⟩
  · exact absurd rfl hz
  · exact .inl (isClass_octalDigit.mem_kstar.mpr hw)
  · exact .inr (.inl (isClass_hexMark.cons_mem_mul.mpr
      ⟨decide_eq_true hx, isClass_hexDigit.mem_kstar.mpr hv⟩))
  · rw [hnil rfl]
    exact .inr (.inr (isClass_point.cons_mem_mul.mpr ⟨decide_eq_true rfl, hf⟩))

theorem longest_zero_point (f : List Char) :
    Longest '0' ('.' :: f) (.token .float) (fractionLength f + 1) where
  spelling := .float rfl rfl (fun _ => rfl) (longestIn_fraction f).mem
  le_length := (longestIn_pointed f).le_length
  length_le cls w h hbegin := by
    rcases h.of_zero with hw | hw | hw
    · refine isClass_octalDigit.length_le_of_mem_kstar hw hbegin ?_
      intro c rest h
      cases h
      decide
    · refine absurd hbegin (isClass_hexMark.not_prefix_of_mem_mul hw ?_)
      intro c rest h
      cases h
      decide
    · exact (longestIn_pointed f).length_le w hw hbegin

theorem longest_zero_hex {x : Char} (hx : x = 'x' ∨ x = 'X') :
    Longest '0' (x :: rest) (.token .int) (runLength isHexDigit rest + 1) := by
  have hhex : LongestIn ((literal "x" + literal "X") * hexDigit∗) (x :: rest) _ :=
    LongestIn.cons_mul isClass_hexMark (decide_eq_true hx) (longestIn_kstar isClass_hexDigit rest)
  refine ⟨.hex hx (all_take_runLength _ _), hhex.le_length, fun cls w h hbegin => ?_⟩
  rcases h.of_zero with hw | hw | hw
  · refine isClass_octalDigit.length_le_of_mem_kstar hw hbegin ?_
    intro c rest h
    cases h
    rcases hx with rfl | rfl <;> decide
  · exact hhex.length_le w hw hbegin
  · refine absurd hbegin (isClass_point.not_prefix_of_mem_mul hw ?_)
    intro c rest h
    cases h
    rcases hx with rfl | rfl <;> decide

theorem longest_zero_octal (hhex : ∀ x cs, rest = x :: cs → ¬ (x = 'x' ∨ x = 'X'))
    (hpoint : ∀ cs, rest ≠ '.' :: cs) :
    Longest '0' rest (.token .int) (runLength isOctDigit rest) where
  spelling := .octal (all_take_runLength _ _)
  le_length := runLength_le _ _
  length_le cls w h hbegin := by
    rcases h.of_zero with hw | hw | hw
    · exact (longestIn_kstar isClass_octalDigit rest).length_le w hw hbegin
    · refine absurd hbegin (isClass_hexMark.not_prefix_of_mem_mul hw ?_)
      intro x cs hcs hx
      exact hhex x cs hcs (of_decide_eq_true hx)
    · refine absurd hbegin (isClass_point.not_prefix_of_mem_mul hw ?_)
      intro x cs hcs hx
      exact hpoint cs (by rw [hcs, of_decide_eq_true hx])

/-- A number that begins with zero: a zero with a fraction, or digits of radix eight or sixteen. -/
theorem longest_number_zero :
    Longest '0' rest (.token (number '0' rest).1) (number '0' rest).2 := by
  simp only [number, if_true, List.drop_zero]
  split
  · next f =>
    have h := longest_zero_point f
    rwa [Nat.add_comm] at h
  · next hpoint =>
    cases rest with
    | nil => exact longest_zero_octal [] (fun x cs h => by cases h) hpoint
    | cons x cs =>
      rw [afterZeroLength]
      split
      · next hx =>
        rw [Nat.add_comm]
        exact longest_zero_hex cs hx
      · next hx =>
        refine longest_zero_octal (x :: cs) (fun y ys h => ?_) hpoint
        obtain ⟨rfl, -⟩ := List.cons.inj h
        exact hx

/-- A float that begins with its point. -/
theorem longest_point {d : Char} (hd : d.isDigit) :
    Longest '.' (d :: rest) (.token .float) (fractionLength (d :: rest)) := by
  have hlength : fractionLength (d :: rest) = fractionLength rest + 1 := by
    simp only [fractionLength, runLength, List.takeWhile_cons_of_pos hd, List.length_cons,
      List.drop_succ_cons]
    omega
  have hlong := LongestIn.cons_mul isClass_digit hd (longestIn_fraction rest)
  rw [hlength]
  refine .of_longestIn hlong.optional ?_ (.point hd (longestIn_fraction rest).mem)
  intro cls w h
  cases h with
  | blank hc _ => cases hc
  | word hc _ => cases hc
  | keyword h => exact absurd (letters_of_mem_keywords h).1 (by decide)
  | decimal hc _ _ => cases hc
  | float hc _ _ _ => cases hc
  | point hd hf => exact .inr (isClass_digit.cons_mem_mul.mpr ⟨hd, hf⟩)
  | symbol h =>
    have hw : w = [] := by_contra fun hw => point_of_mem_symbols h ⟨List.mem_cons_self, hw⟩
    exact .inl hw

/-- What begins with none of the above is a symbol. -/
theorem Spelling.mem_symbols {rest : List Char} (h : Spelling cls c w) (hbegin : w <+: rest)
    (hblank : ¬ isBlank c) (hletter : ¬ isLetter c) (hdigit : ¬ c.isDigit)
    (hpoint : ¬ (c = '.' ∧ rest.head?.any Char.isDigit)) : ∃ kind, (c :: w, kind) ∈ symbols := by
  cases h with
  | blank hc _ => exact absurd hc hblank
  | word hc _ => exact absurd hc hletter
  | keyword h => exact absurd (letters_of_mem_keywords h).1 hletter
  | decimal hc _ _ => exact absurd hc hdigit
  | octal _ => exact absurd rfl hdigit
  | hex _ _ => exact absurd rfl hdigit
  | float hc _ _ _ => exact absurd hc hdigit
  | point hd _ =>
    obtain ⟨cs, rfl⟩ := hbegin
    exact absurd ⟨rfl, hd⟩ hpoint
  | symbol h => exact ⟨_, h⟩

theorem length_le_of_mem_symbols {kind : TokenKind} (h : (c :: w, kind) ∈ symbols) :
    w.length ≤ 1 := by
  have htable : symbols.all fun entry => entry.1.tail.length ≤ 1 := by decide
  exact of_decide_eq_true (List.all_eq_true.mp htable _ h)

/-- A symbol behind its first character, in front of `rest`, is empty or one character. -/
theorem eq_take_of_mem_symbols {rest : List Char} {kind : TokenKind}
    (h : (c :: w, kind) ∈ symbols) (hbegin : w <+: rest) : w = [] ∨ w = rest.take 1 := by
  have hlength := length_le_of_mem_symbols h
  rcases Nat.le_one_iff_eq_zero_or_eq_one.mp hlength with hzero | hone
  · exact .inl (List.length_eq_zero_iff.mp hzero)
  · rw [← hone]
    exact .inr (List.prefix_iff_eq_take.mp hbegin)

/-- The longest of the symbols, if they are all that may begin here. -/
theorem longest_symbol {kind : TokenKind} {n : ℕ} (hsymbol : symbol? c rest = some (kind, n))
    (hmem : ∀ cls w, Spelling cls c w → w <+: rest → ∃ kind, (c :: w, kind) ∈ symbols) :
    Longest c rest (.token kind) n := by
  rw [symbol?] at hsymbol
  split at hsymbol
  · next found hpair =>
    obtain ⟨rfl, rfl⟩ := Prod.mk.inj (Option.some.inj hsymbol)
    have htake : rest.take (rest.take 1).length = rest.take 1 :=
      (List.prefix_iff_eq_take.mp (List.take_prefix 1 rest)).symm
    have hspelling : Spelling (.token found) c (rest.take (rest.take 1).length) := by
      rw [htake]
      exact .symbol (mem_of_lookup_eq_some hpair)
    refine ⟨hspelling, List.length_take_le' 1 rest, fun cls w hw hbegin => ?_⟩
    obtain ⟨kind, hkind⟩ := hmem cls w hw hbegin
    rcases eq_take_of_mem_symbols hkind hbegin with rfl | rfl
    · exact Nat.zero_le _
    · exact Nat.le_refl _
  · next hpair =>
    obtain ⟨found, hsingle, heq⟩ := Option.map_eq_some_iff.mp hsymbol
    obtain ⟨rfl, rfl⟩ := Prod.mk.inj heq
    refine ⟨.symbol (mem_of_lookup_eq_some hsingle), Nat.zero_le _, fun cls w hw hbegin => ?_⟩
    obtain ⟨kind, hkind⟩ := hmem cls w hw hbegin
    rcases eq_take_of_mem_symbols hkind hbegin with rfl | rfl
    · exact Nat.le_refl 0
    · rw [lookup_of_mem_symbols hkind] at hpair
      cases hpair

theorem not_mem_symbols_of_symbol? (hsymbol : symbol? c rest = none) {kind : TokenKind}
    (hbegin : w <+: rest) : (c :: w, kind) ∉ symbols := by
  intro h
  rw [symbol?] at hsymbol
  split at hsymbol
  · cases hsymbol
  · next hpair =>
    have hsingle := Option.map_eq_none_iff.mp hsymbol
    rcases eq_take_of_mem_symbols h hbegin with rfl | rfl
    · rw [lookup_of_mem_symbols h] at hsingle
      cases hsingle
    · rw [lookup_of_mem_symbols h] at hpair
      cases hpair

/-- The scanner takes the longest text with a pattern, or one character where there is none. -/
theorem longest_scan (c : Char) (rest : List Char) :
    Longest c rest (scan c rest).1 (scan c rest).2 ∨
      scan c rest = (.stray, 0) ∧ ∀ cls w, w <+: rest → ¬ Spelling cls c w := by
  rw [scan]
  split
  · next hblank => exact .inl (longest_blanks rest hblank)
  next hblank =>
  split
  · next hletter => exact .inl (longest_word rest hletter)
  next hletter =>
  split
  · next hdigit =>
    by_cases hzero : c = '0'
    · rw [hzero]
      exact .inl (longest_number_zero rest)
    · exact .inl (longest_number_of_ne rest hdigit hzero)
  next hdigit =>
  split
  · next hpoint =>
    obtain ⟨rfl, hhead⟩ := hpoint
    cases rest with
    | nil => cases hhead
    | cons d rest => exact .inl (longest_point rest hhead)
  next hpoint =>
  -- everything that is no symbol has been ruled out by the first character
  have hmem : ∀ cls w, Spelling cls c w → w <+: rest → ∃ kind, (c :: w, kind) ∈ symbols :=
    fun cls w hw hbegin => hw.mem_symbols hbegin hblank hletter hdigit hpoint
  split
  · next kind n hsymbol => exact .inl (longest_symbol rest hsymbol hmem)
  · next hsymbol =>
    refine .inr ⟨rfl, fun cls w hbegin hw => ?_⟩
    obtain ⟨kind, hkind⟩ := hmem cls w hw hbegin
    exact not_mem_symbols_of_symbol? rest hsymbol hbegin hkind

end Scanner

/-! ### Lexing by longest match -/

/-- A text has the pattern of a class for itself: of two classes that share it, a keyword goes
before a word. -/
def Class.Wins (cls : Class) (w : List Char) : Prop :=
  cls.Matches w ∧ (cls = .token .ident → ∀ cls' : Class, cls'.Matches w → cls' = cls)

/-- The first lexeme of a text. It is the longest beginning that has a pattern. Where there is none
it is one character. -/
inductive IsFirst (text : List Char) : Lexeme → Prop where
  | longest {cls : Class} {w : List Char} (hwins : cls.Wins w) (hbegin : w <+: text)
      (hlongest : ∀ (cls' : Class) v, cls'.Matches v → v <+: text → v.length ≤ w.length) :
      IsFirst text ⟨cls, w⟩
  | stray {c : Char} (hbegin : [c] <+: text)
      (hnone : ∀ (cls : Class) v, cls.Matches v → ¬ v <+: text) : IsFirst text ⟨.stray, [c]⟩

/-- A text cut into lexemes, each the first one of what is left of the text. -/
inductive Lexes : List Char → List Lexeme → Prop where
  | nil : Lexes [] []
  | cons {x : Lexeme} {rest : List Char} {xs : List Lexeme} (hfirst : IsFirst (x.text ++ rest) x)
      (hrest : Lexes rest xs) : Lexes (x.text ++ rest) (x :: xs)

/-- A text has only one first lexeme. -/
theorem IsFirst.unique {text : List Char} {x y : Lexeme} (hx : IsFirst text x)
    (hy : IsFirst text y) : x = y := by
  cases hx with
  | @longest cls w hwins hbegin hlongest =>
    cases hy with
    | @longest cls' w' hwins' hbegin' hlongest' =>
      have hlength : w.length = w'.length :=
        Nat.le_antisymm (hlongest' cls w hwins.1 hbegin) (hlongest cls' w' hwins'.1 hbegin')
      obtain rfl : w = w' :=
        (List.prefix_of_prefix_length_le hbegin hbegin' hlength.le).eq_of_length hlength
      obtain ⟨c, v, rfl⟩ := List.exists_cons_of_ne_nil hwins.1.ne_nil
      have hcls : cls = cls' := by
        rcases Spelling.unique (.of_matches hwins.1) (.of_matches hwins'.1) with h | h | h
        · exact h
        · exact (hwins.2 h cls' hwins'.1).symm
        · exact hwins'.2 h cls hwins.1
      rw [hcls]
    | stray _ hnone => exact absurd hbegin (hnone cls w hwins.1)
  | @stray c hbegin hnone =>
    cases hy with
    | @longest cls' w' hwins' hbegin' _ => exact absurd hbegin' (hnone cls' w' hwins'.1)
    | @stray d hbegin' _ =>
      rw [(List.prefix_of_prefix_length_le hbegin hbegin' (Nat.le_refl 1)).eq_of_length rfl]

/-- A class that the scanner gives wins, since the scanner looks for keywords first. -/
theorem wins_scan {c : Char} {rest : List Char}
    (h : Spelling (scan c rest).1 c (rest.take (scan c rest).2)) :
    (scan c rest).1.Wins (c :: rest.take (scan c rest).2) := by
  refine ⟨h.matches, fun hident cls' hmatch => ?_⟩
  have hletter := isLetter_of_scan hident
  rcases (Spelling.of_matches hmatch).eq_classOf with hcls | hcls
  · rw [hcls, classOf, if_neg (not_isBlank_of_isLetter hletter), if_pos hletter,
      scan_of_letter hletter, take_runLength]
  · rw [hcls, hident]

theorem isFirst_scan (c : Char) (rest : List Char) :
    IsFirst (c :: rest) ⟨(scan c rest).1, c :: rest.take (scan c rest).2⟩ := by
  -- a text with a pattern that begins the source has `c` for its first character
  have hcons : ∀ {cls : Class} {v : List Char}, cls.Matches v → v <+: c :: rest →
      ∃ w, v = c :: w ∧ w <+: rest ∧ Spelling cls c w := by
    intro cls v hmatch hbegin
    obtain ⟨d, w, rfl⟩ := List.exists_cons_of_ne_nil hmatch.ne_nil
    obtain ⟨rfl, hw⟩ := List.cons_prefix_cons.mp hbegin
    exact ⟨w, rfl, hw, .of_matches hmatch⟩
  rcases longest_scan c rest with h | ⟨hscan, hnone⟩
  · refine .longest (wins_scan h.spelling) ?_ fun cls v hmatch hbegin => ?_
    · exact List.cons_prefix_cons.mpr ⟨rfl, List.take_prefix _ _⟩
    · obtain ⟨w, rfl, hw, hspelling⟩ := hcons hmatch hbegin
      rw [List.length_cons, List.length_cons, List.length_take, Nat.min_eq_left h.le_length]
      exact Nat.succ_le_succ (h.length_le cls w hspelling hw)
  · rw [hscan]
    refine .stray (List.prefix_append [c] rest) fun cls v hmatch hbegin => ?_
    obtain ⟨w, -, hw, hspelling⟩ := hcons hmatch hbegin
    exact hnone cls w hw hspelling

/-- **The scanner finds the first lexeme.** The patterns say what the first lexeme is, and
uniqueness turns that into an equivalence. -/
theorem isFirst_iff {c : Char} {rest : List Char} {x : Lexeme} :
    IsFirst (c :: rest) x ↔ x = ⟨(scan c rest).1, c :: rest.take (scan c rest).2⟩ := by
  constructor
  · exact fun h => h.unique (isFirst_scan c rest)
  · rintro rfl
    exact isFirst_scan c rest

theorem IsFirst.text_ne_nil {text : List Char} {x : Lexeme} (h : IsFirst text x) : x.text ≠ [] := by
  cases h with
  | longest hwins _ _ => exact hwins.1.ne_nil
  | stray _ _ => exact List.cons_ne_nil _ _

theorem cut_cons (c : Char) (rest : List Char) :
    cut (c :: rest) =
      ⟨(scan c rest).1, c :: rest.take (scan c rest).2⟩ :: cut (rest.drop (scan c rest).2) := by
  rw [cut]

theorem cut_of_isFirst {x : Lexeme} {rest : List Char} (h : IsFirst (x.text ++ rest) x) :
    cut (x.text ++ rest) = x :: cut rest := by
  obtain ⟨c, w, htext⟩ := List.exists_cons_of_ne_nil h.text_ne_nil
  rw [htext, List.cons_append] at h ⊢
  have hx := isFirst_iff.mp h
  have hw : (w ++ rest).take (scan c (w ++ rest)).2 = w :=
    (List.cons.inj ((congrArg Lexeme.text hx).symm.trans htext)).2
  have hrest : (w ++ rest).drop (scan c (w ++ rest)).2 = rest := by
    have happend := List.take_append_drop (scan c (w ++ rest)).2 (w ++ rest)
    rw [hw] at happend
    exact List.append_cancel_left happend
  rw [cut_cons, hrest, ← hx]

/-- A text with a pattern is one lexeme. -/
theorem cut_of_matches {cls : Class} {w : List Char} (h : cls.Matches w)
    (hcls : cls ≠ .token .ident) : cut w = [⟨cls, w⟩] := by
  have hfirst : IsFirst (w ++ []) ⟨cls, w⟩ := by
    rw [List.append_nil]
    exact .longest ⟨h, fun hident => absurd hident hcls⟩ List.prefix_rfl
      fun _ _ _ hbegin => hbegin.length_le
  have hcut := @cut_of_isFirst ⟨cls, w⟩ [] hfirst
  rwa [List.append_nil, cut] at hcut

/-- **Longest match.** A text is cut into lexemes in one way only, and `cut` does it. -/
theorem lexes_iff {text : List Char} {xs : List Lexeme} : Lexes text xs ↔ xs = cut text := by
  constructor
  · intro h
    induction h with
    | nil => rw [cut]
    | cons hfirst _ ih => rw [cut_of_isFirst hfirst, ih]
  · rintro rfl
    fun_induction cut text with
    | case1 => exact .nil
    | case2 c rest cls n hscan ih =>
      have hfirst := isFirst_scan c rest
      have htext : c :: rest = c :: rest.take n ++ rest.drop n := by
        rw [List.cons_append, List.take_append_drop]
      rw [hscan, htext] at hfirst
      rw [htext]
      exact .cons (x := ⟨cls, c :: rest.take n⟩) hfirst ih

end Lexeme

end ArrowCalc
