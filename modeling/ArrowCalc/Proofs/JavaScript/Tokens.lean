import ArrowCalc.Text.Lines
import Mathlib.Data.List.Basic

/-!
# The tokens of JavaScript

A JavaScript text is cut into tokens from left to right, and each token is the longest one that
fits. White space stands between tokens and is no part of them. The tokens are words, numerals and
punctuators; `Math.pow` counts as one token.

Only integers are of interest among the numerals, but a numeral goes on as long as letters, digits
or points follow, so that nothing longer is mistaken for an integer. The openings of comments are
among the punctuators for the same reason.

No token has white space in it. So the tokens on both sides of a blank do not depend on each other,
and blank lines can be taken out of a text.

## Main definitions

* `JavaScript.Longest` — the token at the start of a text
* `JavaScript.Tokens` — the tokens of a text

## Main results

* `JavaScript.Tokens.unique` — a text is cut in one way only
* `JavaScript.Tokens.append_blank`, `JavaScript.Tokens.of_append_blank` — blanks separate
* `JavaScript.Tokens.withoutBlankLines` — blank lines do not matter
-/

namespace ArrowCalc

namespace JavaScript

/-! ### Spellings

These are the tokens of the language as far as they matter for the scripts at hand. The punctuators
are all there, also those that no script has, since a longer one could otherwise be missed. -/

/-- The characters of words. -/
def isWordChar (c : Char) : Bool := c.isAlphanum ∨ c = '_' ∨ c = '$'

/-- A word does not begin with a digit. -/
def IsWord (cs : List Char) : Prop :=
  cs.head?.any (fun c => isWordChar c ∧ ¬ c.isDigit) ∧ cs.all isWordChar

/-- A numeral begins with a digit. -/
def IsNumeral (cs : List Char) : Prop :=
  cs.head?.any Char.isDigit ∧ cs.all fun c => isWordChar c ∨ c = '.'

/-- The punctuators, and the openings of comments. -/
def punctuators : List String :=
  ["\x7b", "\x7d", "(", ")", "[", "]", ".", "...", ";", ",", "<", ">", "<=", ">=", "==", "!=",
    "===", "!==", "+", "-", "*", "/", "%", "**", "++", "--", "<<", ">>", ">>>", "&", "|", "^", "!",
    "~", "&&", "||", "??", "?", "?.", ":", "=", "+=", "-=", "*=", "/=", "%=", "**=", "<<=", ">>=",
    ">>>=", "&=", "|=", "^=", "&&=", "||=", "??=", "=>", "//", "/*"]

/-- The name of the power function. -/
def mathPow : String := "Math.pow"

/-- What can be a token. -/
def IsToken (cs : List Char) : Prop :=
  IsWord cs ∨ IsNumeral cs ∨ cs ∈ punctuators.map String.toList ∨ cs = mathPow.toList

instance (cs : List Char) : Decidable (IsWord cs) := inferInstanceAs (Decidable (_ ∧ _))

instance (cs : List Char) : Decidable (IsNumeral cs) := inferInstanceAs (Decidable (_ ∧ _))

/-- The token `w` is the longest one at the start of the text, in which `rest` stands behind it. -/
structure Longest (w : String) (rest : List Char) : Prop where
  isToken : IsToken w.toList
  length_le : ∀ cs, IsToken cs → cs <+: w.toList ++ rest → cs.length ≤ w.toList.length

/-- The tokens of a text. -/
inductive Tokens : List Char → List String → Prop where
  | nil : Tokens [] []
  | blank {c : Char} {cs : List Char} {ws : List String} (hc : Text.isBlank c) (h : Tokens cs ws) :
      Tokens (c :: cs) ws
  | token {w : String} {rest : List Char} {ws : List String} (hw : Longest w rest)
      (h : Tokens rest ws) : Tokens (w.toList ++ rest) (w :: ws)

/-! ### Cutting in one way

`Tokens` is a relation: a text with a character that begins no token is cut in no way. That a script
is cut at all is shown where it is written. -/

theorem toNat_of_isAlphanum {c : Char} (h : c.isAlphanum) :
    48 ≤ c.toNat ∧ c.toNat ≤ 57 ∨ 65 ≤ c.toNat ∧ c.toNat ≤ 90 ∨ 97 ≤ c.toNat ∧ c.toNat ≤ 122 := by
  rcases (Bool.or_eq_true _ _).mp h with h | h
  · rcases (Bool.or_eq_true _ _).mp h with h | h
    · exact .inr (.inl (of_decide_eq_true h))
    · obtain ⟨hlow, hhigh⟩ := (Bool.and_eq_true _ _).mp h
      exact .inr (.inr ⟨of_decide_eq_true hlow, of_decide_eq_true hhigh⟩)
  · exact .inl (Char.isDigit_iff_toNat.mp h)

theorem not_isBlank_of_isWordChar {c : Char} (h : isWordChar c) : ¬ Text.isBlank c := by
  rcases of_decide_eq_true h with h | rfl | rfl
  · have hrange := toNat_of_isAlphanum h
    simp only [Text.isBlank, Text.blankRanges, List.any_cons, List.any_nil, Bool.or_eq_true,
      decide_eq_true_eq, Bool.false_eq_true, or_false]
    omega
  all_goals decide

theorem isToken_of_mem {w : String} (h : w ∈ punctuators) : IsToken w.toList :=
  .inr (.inr (.inl (List.mem_map_of_mem h)))

theorem IsToken.ne_nil {cs : List Char} (h : IsToken cs) : cs ≠ [] := by
  rintro rfl
  rcases h with h | h | h | h
  · cases h.1
  · cases h.1
  · exact absurd h (by decide)
  · exact absurd h (by decide)

/-- No token has white space in it. -/
theorem IsToken.not_isBlank {cs : List Char} (h : IsToken cs) : ∀ c ∈ cs, ¬ Text.isBlank c := by
  rcases h with h | h | h | rfl
  · exact fun c hc => not_isBlank_of_isWordChar (List.all_eq_true.mp h.2 c hc)
  · intro c hc
    rcases of_decide_eq_true (List.all_eq_true.mp h.2 c hc) with hword | rfl
    · exact not_isBlank_of_isWordChar hword
    · decide
  · have htable : ∀ p ∈ punctuators.map String.toList, p.all (! Text.isBlank ·) := by decide
    simpa using htable cs h
  · have hpow : mathPow.toList.all (! Text.isBlank ·) := by decide
    simpa using hpow

/-- There is one longest token. -/
theorem Longest.unique {w w' : String} {rest rest' : List Char} (h : Longest w rest)
    (h' : Longest w' rest') (heq : w.toList ++ rest = w'.toList ++ rest') :
    w = w' ∧ rest = rest' := by
  have hle := h'.length_le w.toList h.isToken (heq ▸ List.prefix_append _ _)
  have hge := h.length_le w'.toList h'.isToken (heq ▸ List.prefix_append _ _)
  obtain ⟨hw, hrest⟩ := List.append_inj heq (Nat.le_antisymm hle hge)
  exact ⟨String.toList_injective hw, hrest⟩

/-- White space begins no token. -/
theorem Longest.ne_cons {w : String} {rest cs : List Char} {c : Char} (h : Longest w rest)
    (hc : Text.isBlank c) : w.toList ++ rest ≠ c :: cs := by
  intro heq
  cases hw : w.toList with
  | nil => exact h.isToken.ne_nil hw
  | cons d ds =>
    rw [hw] at heq
    injection heq with hd
    refine h.isToken.not_isBlank d ?_ (hd ▸ hc)
    rw [hw]
    exact List.mem_cons_self

/-- **A text is cut in one way only.** -/
theorem Tokens.unique {cs : List Char} {ws ws' : List String} (h : Tokens cs ws)
    (h' : Tokens cs ws') : ws = ws' := by
  generalize hcs : cs = cs' at h'
  induction h generalizing cs' ws' with
  | nil =>
    cases h' with
    | nil => rfl
    | blank => cases hcs
    | token hw' => exact absurd (List.append_eq_nil_iff.mp hcs.symm).1 hw'.isToken.ne_nil
  | blank hc _ ih =>
    cases h' with
    | nil => cases hcs
    | blank hc' h' =>
      injection hcs with _ hcs
      exact ih _ hcs h'
    | token hw' => exact absurd hcs.symm (hw'.ne_cons hc)
  | token hw _ ih =>
    cases h' with
    | nil => exact absurd (List.append_eq_nil_iff.mp hcs).1 hw.isToken.ne_nil
    | blank hc' => exact absurd hcs (hw.ne_cons hc')
    | token hw' h' =>
      obtain ⟨rfl, hrest⟩ := hw.unique hw' hcs
      rw [ih _ hrest h']

/-! ### Where a token ends

To see that a token is the longest one, it is enough to look at the next character. If a longer
token began at the same place, then it would go on with this character. -/

/-- The text does not go on with a character that could belong to a word or a numeral. -/
def StopsWord (rest : List Char) : Prop := ∀ c ∈ rest.head?, ¬ isWordChar c ∧ c ≠ '.'

/-- The text does not go on with a character that makes a longer punctuator of `w`. -/
def StopsPunctuator (w : String) (rest : List Char) : Prop :=
  ∀ c ∈ rest.head?, ∀ p ∈ punctuators, ¬ w.toList ++ [c] <+: p.toList

/-- A token is the longest one if no token goes on with the next character. -/
theorem longest_of_head {w : String} {rest : List Char} (hw : IsToken w.toList)
    (h : ∀ c ∈ rest.head?, ∀ cs, IsToken cs → ¬ w.toList ++ [c] <+: cs) : Longest w rest := by
  refine ⟨hw, fun cs hcs hbegins => ?_⟩
  rcases List.prefix_or_prefix_of_prefix hbegins (List.prefix_append w.toList rest) with hle | hge
  · exact hle.length_le
  · obtain ⟨ds, rfl⟩ := hge
    cases ds with
    | nil => simp
    | cons d ds =>
      rw [List.prefix_append_right_inj] at hbegins
      obtain ⟨more, rfl⟩ := hbegins
      refine absurd ?_ (h d rfl _ hcs)
      rw [List.prefix_append_right_inj, List.cons_prefix_cons]
      exact ⟨rfl, List.nil_prefix⟩

/-- A token that begins like a word has only characters of words and points, and the others are
punctuators. -/
theorem IsToken.cases_head {c : Char} {cs : List Char} (h : IsToken (c :: cs)) :
    (isWordChar c ∧ ∀ d ∈ c :: cs, isWordChar d ∨ d = '.') ∨
      (¬ isWordChar c ∧ c :: cs ∈ punctuators.map String.toList) := by
  rcases h with h | h | h | h
  · have hall := List.all_eq_true.mp h.2
    exact .inl ⟨hall c List.mem_cons_self, fun d hd => .inl (hall d hd)⟩
  · have hdigit : c.isDigit := h.1
    have hall : ∀ d ∈ c :: cs, isWordChar d ∨ d = '.' := fun d hd =>
      of_decide_eq_true (List.all_eq_true.mp h.2 d hd)
    refine .inl ⟨?_, hall⟩
    simp only [isWordChar, Char.isAlphanum, hdigit, Bool.or_true, true_or, decide_true]
  · have htable : ∀ p ∈ punctuators.map String.toList, ¬ p.head?.any isWordChar := by decide
    exact .inr ⟨htable _ h, h⟩
  · have hpow : mathPow.toList.all fun d => isWordChar d ∨ d = '.' := by decide
    have hhead : mathPow.toList.head?.any isWordChar := by decide
    rw [← h] at hpow hhead
    exact .inl ⟨hhead, fun d hd => of_decide_eq_true (List.all_eq_true.mp hpow d hd)⟩

/-- A word, a numeral or the power function ends in front of other characters. -/
theorem longest_word {w : String} {rest : List Char} (hw : IsToken w.toList)
    (hhead : w.toList.head?.any isWordChar) (hrest : StopsWord rest) : Longest w rest := by
  refine longest_of_head hw fun c hc cs hcs hbegins => ?_
  obtain ⟨hchar, hdot⟩ := hrest c hc
  obtain ⟨ds, rfl⟩ := hbegins
  cases htext : w.toList with
  | nil => exact hw.ne_nil htext
  | cons d rest =>
    rw [htext] at hcs hhead
    rcases hcs.cases_head with ⟨-, hall⟩ | ⟨hd, -⟩
    · rcases hall c (by simp) with h | h
      · exact hchar h
      · exact hdot h
    · exact hd hhead

/-- A punctuator ends where no longer punctuator goes on. -/
theorem longest_punctuator {w : String} {rest : List Char} (hw : w ∈ punctuators)
    (hrest : StopsPunctuator w rest) : Longest w rest := by
  have htoken := isToken_of_mem hw
  refine longest_of_head htoken fun c hc cs hcs hbegins => ?_
  cases htext : w.toList with
  | nil => exact htoken.ne_nil htext
  | cons d ds =>
    have hd : ¬ isWordChar d := by
      have htable : ∀ p ∈ punctuators, ¬ p.toList.head?.any isWordChar := by decide
      have hhead := htable w hw
      rwa [htext] at hhead
    obtain ⟨es, rfl⟩ := hbegins
    rw [htext] at hcs
    rcases hcs.cases_head with ⟨h, -⟩ | ⟨-, hmem⟩
    · exact hd h
    · obtain ⟨p, hp, heq⟩ := List.mem_map.mp hmem
      refine hrest c hc p hp ?_
      rw [heq, htext]
      exact List.prefix_append _ _

/-- Every token ends in front of a blank. -/
theorem longest_of_blank {w : String} {c : Char} (hw : IsToken w.toList) (hc : Text.isBlank c)
    (rest : List Char) : Longest w (c :: rest) := by
  refine longest_of_head hw fun d hd cs hcs hbegins => ?_
  obtain rfl := Option.some.inj hd
  exact hcs.not_isBlank c (hbegins.subset (by simp)) hc

/-! ### Blanks

A blank is a place where a text can be cut in two, in both directions: the tokens of the parts are
those of the whole. -/

/-- A prefix without white space ends before the first blank. -/
theorem prefix_of_append_blank {cs as bs : List Char} {c : Char} (h : cs <+: as ++ c :: bs)
    (hcs : ∀ d ∈ cs, ¬ Text.isBlank d) (hc : Text.isBlank c) : cs <+: as := by
  rcases List.prefix_or_prefix_of_prefix h (List.prefix_append as (c :: bs)) with h' | ⟨ds, rfl⟩
  · exact h'
  · rw [List.prefix_append_right_inj] at h
    cases ds with
    | nil => simp
    | cons d ds =>
      obtain ⟨rfl, -⟩ := List.cons_prefix_cons.mp h
      exact absurd hc (hcs d (by simp))

/-- What stands behind a blank has no influence on the token in front of it. -/
theorem Longest.append_blank {w : String} {rest bs : List Char} {c : Char} (hc : Text.isBlank c) :
    Longest w (rest ++ c :: bs) ↔ Longest w rest := by
  constructor
  · intro h
    refine ⟨h.isToken, fun cs hcs hbegins => h.length_le cs hcs ?_⟩
    rw [← List.append_assoc]
    exact hbegins.trans (List.prefix_append _ _)
  · intro h
    refine ⟨h.isToken, fun cs hcs hbegins => h.length_le cs hcs ?_⟩
    rw [← List.append_assoc] at hbegins
    exact prefix_of_append_blank hbegins hcs.not_isBlank hc

/-- The tokens in front of a blank and those behind it are the tokens of the whole. -/
theorem Tokens.append_blank {as bs : List Char} {c : Char} {us vs : List String}
    (has : Tokens as us) (hc : Text.isBlank c) (hbs : Tokens bs vs) :
    Tokens (as ++ c :: bs) (us ++ vs) := by
  induction has with
  | nil => exact .blank hc hbs
  | blank hd _ ih => exact .blank hd ih
  | token hw _ ih =>
    rw [List.append_assoc]
    exact .token ((Longest.append_blank hc).mpr hw) ih

/-- The tokens of a text are those in front of a blank and those behind it. -/
theorem Tokens.of_append_blank {as bs : List Char} {c : Char} {ws : List String}
    (h : Tokens (as ++ c :: bs) ws) (hc : Text.isBlank c) :
    ∃ us vs, ws = us ++ vs ∧ Tokens as us ∧ Tokens bs vs := by
  generalize hcs : as ++ c :: bs = cs at h
  induction h generalizing as with
  | nil => exact absurd hcs (by simp)
  | @blank d cs ws hd h ih =>
    cases as with
    | nil =>
      injection hcs with _ hcs
      exact ⟨[], ws, rfl, .nil, hcs ▸ h⟩
    | cons a as =>
      injection hcs with ha hcs
      obtain ⟨us, vs, rfl, hus, hvs⟩ := ih hcs
      exact ⟨us, vs, rfl, .blank (ha ▸ hd) hus, hvs⟩
  | @token w rest ws hw h ih =>
    have hbegins : w.toList <+: as ++ c :: bs := by
      rw [hcs]
      exact List.prefix_append _ _
    replace hbegins := prefix_of_append_blank hbegins hw.isToken.not_isBlank hc
    obtain ⟨as, rfl⟩ := hbegins
    rw [List.append_assoc] at hcs
    obtain rfl := List.append_cancel_left hcs
    obtain ⟨us, vs, rfl, hus, hvs⟩ := ih rfl
    exact ⟨w :: us, vs, rfl, .token ((Longest.append_blank hc).mp hw) hus, hvs⟩

/-- White space has no tokens. -/
theorem tokens_of_blank {cs : List Char} (h : cs.all Text.isBlank) : Tokens cs [] := by
  induction cs with
  | nil => exact .nil
  | cons c cs ih =>
    rw [List.all_cons, Bool.and_eq_true] at h
    exact .blank h.1 (ih h.2)

/-! ### Lines

Line feeds are blanks to the tokens. So the lines of a text can be looked at one by one, and those
that are blank have no tokens. -/

/-- The tokens of lines, one line after the other. -/
inductive LineTokens : List (List Char) → List String → Prop where
  | nil : LineTokens [] []
  | cons {line : List Char} {lines : List (List Char)} {us vs : List String} (h : Tokens line us)
      (hrest : LineTokens lines vs) : LineTokens (line :: lines) (us ++ vs)

theorem tokens_dropReturn {seen : List Char} {ws : List String} (h : Tokens seen.reverse ws) :
    Tokens (Text.dropReturn seen).reverse ws := by
  rw [Text.dropReturn.eq_def]
  split
  · next line =>
    rw [List.reverse_cons] at h
    obtain ⟨us, vs, rfl, hus, hvs⟩ := h.of_append_blank (by decide)
    rwa [hvs.unique .nil, List.append_nil]
  · exact h

/-- The tokens of a text are those of its lines. -/
theorem lineTokens_linesFrom {seen cs : List Char} {ws : List String}
    (h : Tokens (seen.reverse ++ cs) ws) : LineTokens (Text.linesFrom seen cs) ws := by
  induction cs generalizing seen ws with
  | nil =>
    rw [List.append_nil] at h
    rw [Text.linesFrom]
    split
    · next hseen =>
      rw [hseen] at h
      rw [h.unique .nil]
      exact .nil
    · have hline := LineTokens.cons h .nil
      rwa [List.append_nil] at hline
  | cons c cs ih =>
    rw [Text.linesFrom]
    split
    · next hc =>
      rw [hc] at h
      obtain ⟨us, vs, rfl, hus, hvs⟩ := h.of_append_blank (by decide)
      exact .cons (tokens_dropReturn hus) (ih hvs)
    · refine ih ?_
      rwa [List.reverse_cons, List.append_assoc]

theorem LineTokens.filter {lines : List (List Char)} {ws : List String} (h : LineTokens lines ws) :
    LineTokens (lines.filter fun line => !line.all Text.isBlank) ws := by
  induction h with
  | nil => exact .nil
  | @cons line lines us vs h _ ih =>
    by_cases hblank : line.all Text.isBlank
    · rw [List.filter_cons_of_neg (by simp [hblank]), h.unique (tokens_of_blank hblank)]
      exact ih
    · rw [List.filter_cons_of_pos (by simp [hblank])]
      exact .cons h ih

/-- Lines with line feeds between them have the tokens of the lines. -/
theorem LineTokens.join {lines : List (List Char)} {ws : List String} (h : LineTokens lines ws) :
    Tokens (['\n'].intercalate lines) ws := by
  induction h with
  | nil => exact .nil
  | @cons line lines us vs h hrest ih =>
    cases lines with
    | nil =>
      cases hrest
      rwa [List.append_nil, List.intercalate_singleton]
    | cons line' lines =>
      rw [List.intercalate_cons_cons, List.append_assoc, List.singleton_append]
      exact h.append_blank (by decide) ih

/-- Taking out the blank lines does not change the tokens. -/
theorem Tokens.withoutBlankLines {text : String} {ws : List String} (h : Tokens text.toList ws) :
    Tokens (Text.withoutBlankLines text).toList ws := by
  have hlines : LineTokens (Text.lines text.toList) ws := lineTokens_linesFrom h
  have hkept : (Text.withoutBlankLines text).toList =
      ['\n'].intercalate ((Text.lines text.toList).filter fun line => !line.all Text.isBlank) := by
    rw [Text.withoutBlankLines, String.toList_intercalate, List.map_map]
    congr 1
    exact (List.map_congr_left fun _ _ => String.toList_ofList).trans (List.map_id _)
  rw [hkept]
  exact hlines.filter.join

end JavaScript

end ArrowCalc
