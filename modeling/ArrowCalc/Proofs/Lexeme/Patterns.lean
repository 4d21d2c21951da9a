import ArrowCalc.Proofs.Canonical
import Mathlib.Computability.Language
import Mathlib.Data.Char

/-!
# The patterns of the tokens

Every kind of token has a pattern, which is a regular language, and so have the blanks between
tokens. The patterns are declared here with the operations on languages alone: ranges of characters,
fixed texts, sums, products and repetition. They overlap in many ways. A keyword is a word, `0` is
the start of an integer in three radixes and of a float, and a point may stand alone, begin a float
or end one.

## Two descriptions

A definition by operations on languages is easy to compare with a declaration of tokens, and hard to
use: to say that a text is in a product is to say that it can be divided, somehow. So each language
gets one description in terms of lists of characters, in which the first character is taken off. The
descriptions are put together in `Lexeme.Spelling`, which says for each class what a text that
begins with a given character may be. The proofs about the scanner use this form alone, and
`Lexeme.Spelling.of_matches` and `Lexeme.Spelling.matches` say that nothing was changed.

## How far the patterns overlap

They overlap less than it seems. A text with two patterns has that of words as one of them, and the
other is that of a keyword or of a truth value. So it takes one rule to make the class of a text
unique, that keywords come first, and no order between the other patterns matters. This is
`Lexeme.Spelling.unique`. It is proved by writing the class of a text down (`Lexeme.classOf`).

## Main definitions

* `TokenKind.pattern`, `Pattern.blanks` — the patterns
* `Lexeme.Class.Matches` — a text has the pattern of a class
* `Lexeme.Spelling` — the same, by the first character

## Main results

* `Lexeme.Spelling.of_matches`, `Lexeme.Spelling.matches` — the two agree
* `Lexeme.Spelling.unique` — a text has the patterns of two classes only if one is that of words
-/

namespace ArrowCalc

open Computability Lexeme

namespace Pattern

/-! ### Building languages

The operations that are not in the library of languages: ranges of characters and fixed texts, and
two kinds of repetition. -/

/-- One character between two others, both included. -/
def range (first last : Char) : Language Char :=
  ({w | ∃ c, (first ≤ c ∧ c ≤ last) ∧ w = [c]} : Set (List Char))

/-- A fixed text. -/
def literal (text : String) : Language Char := {text.toList}

/-- A repetition that is not empty. -/
def oneOrMore (l : Language Char) : Language Char := l * l∗

/-- Something that may be left out. -/
def optional (l : Language Char) : Language Char := 1 + l

/-! ### The parts of tokens -/

def digit : Language Char := range '0' '9'

def octalDigit : Language Char := range '0' '7'

def hexDigit : Language Char := range '0' '9' + range 'a' 'f' + range 'A' 'F'

def letter : Language Char := range 'A' 'Z' + range 'a' 'z' + literal "_"

def alphanumeric : Language Char := range 'A' 'Z' + range 'a' 'z' + range '0' '9'

/-- A decimal integer, without leading zeros. -/
def whole : Language Char := literal "0" + range '1' '9' * digit∗

/-- An exponent, of which the digits may be missing. -/
def exponent : Language Char := (literal "e" + literal "E") * (optional (literal "-") * digit∗)

/-- What may follow a decimal point. -/
def fraction : Language Char := digit∗ * optional exponent

/-! ### Tokens with many spellings -/

def integer : Language Char :=
  whole + literal "0" * oneOrMore octalDigit +
    literal "0" * ((literal "x" + literal "X") * hexDigit∗)

def float : Language Char :=
  whole * (literal "." * (digit∗ * optional exponent)) +
    literal "." * (oneOrMore digit * optional exponent)

def identifier : Language Char := letter * alphanumeric∗

/-- The blanks between tokens. -/
def blanks : Language Char := oneOrMore (literal " " + literal "\t" + literal "\r")

end Pattern

open Pattern

/-- The texts that are tokens of a kind. No text is a mark, an end of the input or unknown. These
three are kinds of tokens that have no text: the first is inserted, the second stands behind the
text, and the third is for what has no pattern. -/
def TokenKind.pattern : TokenKind → Language Char
  | assign => literal "="
  | addAssign => literal "+="
  | subAssign => literal "-="
  | mulAssign => literal "*="
  | divAssign => literal "/="
  | plus => literal "+"
  | dash => literal "-"
  | star => literal "*"
  | slash => literal "/"
  | power => literal "**"
  | equal => literal "=="
  | greaterEqual => literal ">="
  | lessEqual => literal "<="
  | increment => literal "++"
  | decrement => literal "--"
  | lparen => literal "("
  | rparen => literal ")"
  | lbracket => literal "["
  | rbracket => literal "]"
  | lbrace => literal "\x7b"
  | rbrace => literal "\x7d"
  | langle => literal "<"
  | rangle => literal ">"
  | int => integer
  | float => Pattern.float
  | bool => literal "true" + literal "false"
  | ident => identifier
  | kwIf => literal "if"
  | kwElse => literal "else"
  | kwBreak => literal "break"
  | kwContinue => literal "continue"
  | kwWhile => literal "while"
  | kwLet => literal "let"
  | kwReturn => literal "return"
  | comma => literal ","
  | colon => literal ":"
  | semicolon => literal ";"
  | dot => literal "."
  | quote => literal "\x27"
  | arrow => literal "=>"
  | newline => literal "\n"
  | func | eof | unknown => 0

/-- The text has the pattern of the class. -/
def Lexeme.Class.Matches : Class → List Char → Prop
  | .token kind, w => w ∈ kind.pattern
  | .blank, w => w ∈ blanks
  | .stray, _ => False

namespace Pattern

/-! ### Languages of characters

Everything that is repeated in a pattern is a single character of some class. For these languages
products and repetitions have plain descriptions. -/

/-- The texts of the language are the characters with `p`. -/
def IsClass (l : Language Char) (p : Char → Bool) : Prop := ∀ w, w ∈ l ↔ ∃ c, p c ∧ w = [c]

section IsClass

variable {l m : Language Char} {p q : Char → Bool}

theorem isClass_range (first last : Char) :
    IsClass (range first last) fun c => first ≤ c ∧ c ≤ last := by
  intro w
  simp only [decide_eq_true_eq]
  exact Iff.rfl

theorem isClass_literal (text : String) (c : Char) (htext : text.toList = [c]) :
    IsClass (literal text) (· = c) := by
  intro w
  simp only [decide_eq_true_eq, exists_eq_left]
  rw [← htext]
  exact Iff.rfl

theorem IsClass.add (hl : IsClass l p) (hm : IsClass m q) :
    IsClass (l + m) fun c => p c ∨ q c := by
  intro w
  rw [Language.mem_add, hl w, hm w]
  simp only [decide_eq_true_eq, or_and_right, exists_or]

theorem IsClass.congr (hl : IsClass l p) (h : ∀ c, q c ↔ p c) : IsClass l q := by
  intro w
  simp only [hl w, h]

theorem IsClass.mem_mul (hl : IsClass l p) {w : List Char} :
    w ∈ l * m ↔ ∃ c v, w = c :: v ∧ p c ∧ v ∈ m := by
  rw [Language.mem_mul]
  constructor
  · rintro ⟨a, ha, v, hv, rfl⟩
    obtain ⟨c, hc, rfl⟩ := (hl a).mp ha
    exact ⟨c, v, rfl, hc, hv⟩
  · rintro ⟨c, v, rfl, hc, hv⟩
    exact ⟨[c], (hl [c]).mpr ⟨c, hc, rfl⟩, v, hv, rfl⟩

/-- In a product with a class in front, the first character is taken off. -/
theorem IsClass.cons_mem_mul (hl : IsClass l p) {c : Char} {v : List Char} :
    c :: v ∈ l * m ↔ p c ∧ v ∈ m := by
  rw [hl.mem_mul]
  constructor
  · rintro ⟨d, u, heq, hd, hu⟩
    obtain ⟨rfl, rfl⟩ := List.cons.inj heq
    exact ⟨hd, hu⟩
  · rintro ⟨hc, hv⟩
    exact ⟨c, v, rfl, hc, hv⟩

theorem IsClass.nil_notMem_mul (hl : IsClass l p) : [] ∉ l * m := by
  rw [hl.mem_mul]
  rintro ⟨c, v, heq, -⟩
  cases heq

/-- A repetition of characters of a class is a text of such characters. -/
theorem IsClass.mem_kstar (hl : IsClass l p) {w : List Char} : w ∈ l∗ ↔ w.all p := by
  rw [Language.mem_kstar, List.all_eq_true]
  constructor
  · rintro ⟨pieces, rfl, hpieces⟩ c hc
    obtain ⟨piece, hpiece, hmem⟩ := List.mem_flatten.mp hc
    obtain ⟨d, hd, rfl⟩ := (hl piece).mp (hpieces piece hpiece)
    rwa [List.mem_singleton.mp hmem]
  · intro h
    refine ⟨w.map fun c => [c], ?_, ?_⟩
    · rw [← List.flatMap_def, List.flatMap_singleton']
    · exact List.forall_mem_map.mpr fun c hc => (hl [c]).mpr ⟨c, h c hc, rfl⟩

theorem IsClass.cons_mem_oneOrMore (hl : IsClass l p) {c : Char} {v : List Char} :
    c :: v ∈ oneOrMore l ↔ p c ∧ v.all p := by
  rw [oneOrMore, hl.cons_mem_mul, hl.mem_kstar]

/-- A repetition that is not empty is a text that is not. -/
theorem IsClass.mem_oneOrMore (hl : IsClass l p) {w : List Char} :
    w ∈ oneOrMore l ↔ w ≠ [] ∧ w.all p := by
  cases w with
  | nil =>
    constructor
    · exact fun h => absurd h hl.nil_notMem_mul
    · exact fun h => absurd rfl h.1
  | cons c v =>
    rw [hl.cons_mem_oneOrMore, List.all_cons, Bool.and_eq_true]
    exact (and_iff_right (List.cons_ne_nil c v)).symm

end IsClass

theorem mem_literal {text : String} {w : List Char} : w ∈ literal text ↔ w = text.toList := Iff.rfl

/-! ### The classes of characters

The classes as the scanner tests them, against the ranges in the patterns. -/

theorem isDigit_iff (c : Char) : c.isDigit ↔ '0' ≤ c ∧ c ≤ '9' := by
  show (decide _ && decide _) = true ↔ _
  rw [Bool.and_eq_true, decide_eq_true_iff, decide_eq_true_iff]
  exact Iff.rfl

theorem isAlpha_iff (c : Char) : c.isAlpha ↔ ('A' ≤ c ∧ c ≤ 'Z') ∨ ('a' ≤ c ∧ c ≤ 'z') := by
  show (decide _ || (decide _ && decide _)) = true ↔ _
  rw [Bool.or_eq_true, Bool.and_eq_true, decide_eq_true_iff, decide_eq_true_iff, decide_eq_true_iff]
  exact Iff.rfl

theorem isAlphanum_iff (c : Char) : c.isAlphanum ↔ c.isAlpha ∨ c.isDigit :=
  (Bool.or_eq_true _ _).to_iff

theorem isClass_digit : IsClass digit Char.isDigit :=
  (isClass_range '0' '9').congr fun c => by rw [isDigit_iff, decide_eq_true_iff]

theorem isClass_octalDigit : IsClass octalDigit isOctDigit := isClass_range '0' '7'

/-- The digits from one on are the digits other than zero: no character lies between zero and one.
-/
theorem isClass_nonzero : IsClass (range '1' '9') fun c => c.isDigit ∧ c ≠ '0' := by
  refine (isClass_range '1' '9').congr fun c => ?_
  have hone : '0' < c ↔ '1' ≤ c := Iff.rfl
  rw [decide_eq_true_iff, decide_eq_true_iff, isDigit_iff, ← hone, lt_iff_le_and_ne, ne_comm]
  exact and_right_comm

theorem isClass_hexDigit : IsClass hexDigit isHexDigit := by
  refine ((isClass_digit.add (isClass_range 'a' 'f')).add (isClass_range 'A' 'F')).congr fun c => ?_
  simp only [isHexDigit, decide_eq_true_eq, or_assoc]

theorem isClass_alpha : IsClass (range 'A' 'Z' + range 'a' 'z') Char.isAlpha := by
  refine ((isClass_range 'A' 'Z').add (isClass_range 'a' 'z')).congr fun c => ?_
  simp only [isAlpha_iff, decide_eq_true_eq]

theorem isClass_letter : IsClass letter isLetter := by
  refine (isClass_alpha.add (isClass_literal "_" '_' rfl)).congr fun c => ?_
  simp only [isLetter, decide_eq_true_eq]

theorem isClass_alphanumeric : IsClass alphanumeric Char.isAlphanum :=
  (isClass_alpha.add isClass_digit).congr fun c => by rw [isAlphanum_iff, decide_eq_true_iff]

theorem isClass_blank : IsClass (literal " " + literal "\t" + literal "\r") isBlank := by
  have htwo := (isClass_literal " " ' ' rfl).add (isClass_literal "\t" '\t' rfl)
  refine (htwo.add (isClass_literal "\r" '\r' rfl)).congr fun c => ?_
  simp only [isBlank, decide_eq_true_eq, or_assoc]

theorem isClass_exponentMark : IsClass (literal "e" + literal "E") fun c => c = 'e' ∨ c = 'E' :=
  ((isClass_literal "e" 'e' rfl).add (isClass_literal "E" 'E' rfl)).congr fun c => by
    simp only [decide_eq_true_eq]

theorem isClass_hexMark : IsClass (literal "x" + literal "X") fun c => c = 'x' ∨ c = 'X' :=
  ((isClass_literal "x" 'x' rfl).add (isClass_literal "X" 'X' rfl)).congr fun c => by
    simp only [decide_eq_true_eq]

/-- Tokens with one spelling, or two in the case of a truth value. -/
theorem mem_pattern_iff {kind : TokenKind} (h : kind ∉ [TokenKind.int, .float, .ident])
    {w : List Char} : w ∈ kind.pattern ↔ (w, kind) ∈ symbols ∨ (w, kind) ∈ keywords := by
  cases kind with
  | bool =>
    rw [TokenKind.pattern, Language.mem_add, mem_literal, mem_literal]
    simp [symbols, keywords]
  | _ => simp [TokenKind.pattern, mem_literal, symbols, keywords] at h ⊢

/-! ### Numbers and words -/

/-- Without leading zeros: a zero is followed by nothing. -/
theorem cons_mem_whole {c : Char} {v : List Char} :
    c :: v ∈ whole ↔ c.isDigit ∧ v.all Char.isDigit ∧ (c = '0' → v = []) := by
  rw [whole, Language.mem_add, mem_literal, isClass_nonzero.cons_mem_mul, isClass_digit.mem_kstar,
    decide_eq_true_iff]
  constructor
  · rintro (heq | ⟨⟨hc, hzero⟩, hv⟩)
    · obtain ⟨rfl, rfl⟩ := List.cons.inj heq
      exact ⟨rfl, rfl, fun _ => rfl⟩
    · exact ⟨hc, hv, fun h => absurd h hzero⟩
  · rintro ⟨hc, hv, hzero⟩
    by_cases h : c = '0'
    · rw [h, hzero h]
      exact .inl rfl
    · exact .inr ⟨⟨hc, h⟩, hv⟩

theorem nil_notMem_whole : [] ∉ whole := by
  rintro (h | h)
  · cases h
  · exact isClass_nonzero.nil_notMem_mul h

/-- The integers in three radixes. A zero in front makes an octal numeral of digits up to seven, and
a zero with an `x` behind it a hexadecimal one, whose digits may be missing. -/
theorem cons_mem_integer {c : Char} {v : List Char} :
    c :: v ∈ integer ↔ (c.isDigit ∧ c ≠ '0' ∧ v.all Char.isDigit) ∨ (c = '0' ∧ v.all isOctDigit) ∨
      (c = '0' ∧ ∃ x w, v = x :: w ∧ (x = 'x' ∨ x = 'X') ∧ w.all isHexDigit) := by
  rw [integer, Language.mem_add, Language.mem_add, cons_mem_whole,
    (isClass_literal "0" '0' rfl).cons_mem_mul, (isClass_literal "0" '0' rfl).cons_mem_mul,
    isClass_octalDigit.mem_oneOrMore, isClass_hexMark.mem_mul, decide_eq_true_iff]
  simp only [decide_eq_true_eq, isClass_hexDigit.mem_kstar]
  constructor
  · rintro ((⟨hc, hv, hzero⟩ | ⟨hc, -, hv⟩) | h)
    · -- a zero alone is written in radix ten, and counted with those of radix eight
      by_cases h : c = '0'
      · rw [hzero h]
        exact .inr (.inl ⟨h, rfl⟩)
      · exact .inl ⟨hc, h, hv⟩
    · exact .inr (.inl ⟨hc, hv⟩)
    · exact .inr (.inr h)
  · rintro (⟨hc, hne, hv⟩ | ⟨rfl, hv⟩ | h)
    · exact .inl (.inl ⟨hc, hv, fun h => absurd h hne⟩)
    · by_cases hnil : v = []
      · rw [hnil]
        exact .inl (.inl ⟨rfl, rfl, fun _ => rfl⟩)
      · exact .inl (.inr ⟨rfl, hnil, hv⟩)
    · exact .inr h

theorem nil_notMem_integer : [] ∉ integer := by
  rintro ((h | h) | h)
  · exact nil_notMem_whole h
  · exact (isClass_literal "0" '0' rfl).nil_notMem_mul h
  · exact (isClass_literal "0" '0' rfl).nil_notMem_mul h

/-- The floats with digits in front of the point, and those without. The latter need a digit behind
it, since the point alone is a symbol. -/
theorem cons_mem_float {c : Char} {v : List Char} :
    c :: v ∈ float ↔
      (∃ ds f, v = ds ++ '.' :: f ∧ c :: ds ∈ whole ∧ f ∈ fraction) ∨
      (c = '.' ∧ ∃ d f, v = d :: f ∧ d.isDigit ∧ f ∈ fraction) := by
  have hpoint := isClass_literal "." '.' rfl
  rw [float, Language.mem_add, hpoint.cons_mem_mul, decide_eq_true_iff, oneOrMore, mul_assoc,
    isClass_digit.mem_mul, ← fraction]
  refine or_congr_left ?_
  rw [Language.mem_mul]
  constructor
  · rintro ⟨ds, hds, w, hw, heq⟩
    obtain ⟨x, f, rfl, hx, hf⟩ := hpoint.mem_mul.mp hw
    obtain rfl := of_decide_eq_true hx
    cases ds with
    | nil => exact absurd hds nil_notMem_whole
    | cons d ds =>
      obtain ⟨rfl, rfl⟩ := List.cons.inj heq
      exact ⟨ds, f, rfl, hds, hf⟩
  · rintro ⟨ds, f, rfl, hds, hf⟩
    exact ⟨c :: ds, hds, '.' :: f, hpoint.cons_mem_mul.mpr ⟨rfl, hf⟩, rfl⟩

theorem nil_notMem_float : [] ∉ float := by
  have hpoint := isClass_literal "." '.' rfl
  rintro (h | h)
  · obtain ⟨ds, -, w, hw, heq⟩ := Language.mem_mul.mp h
    rw [(List.append_eq_nil_iff.mp heq).2] at hw
    exact hpoint.nil_notMem_mul hw
  · exact hpoint.nil_notMem_mul h

end Pattern

namespace Lexeme

/-! ### Spellings -/

/-- The character begins the text of a class, and `w` is what follows it there. -/
inductive Spelling : Class → Char → List Char → Prop where
  | blank {c : Char} {w : List Char} (hc : isBlank c) (hw : w.all isBlank) : Spelling .blank c w
  | word {c : Char} {w : List Char} (hc : isLetter c) (hw : w.all Char.isAlphanum) :
      Spelling (.token .ident) c w
  | keyword {c : Char} {w : List Char} {kind : TokenKind} (h : (c :: w, kind) ∈ keywords) :
      Spelling (.token kind) c w
  | decimal {c : Char} {w : List Char} (hc : c.isDigit) (hzero : c ≠ '0')
      (hw : w.all Char.isDigit) : Spelling (.token .int) c w
  | octal {w : List Char} (hw : w.all isOctDigit) : Spelling (.token .int) '0' w
  | hex {x : Char} {w : List Char} (hx : x = 'x' ∨ x = 'X') (hw : w.all isHexDigit) :
      Spelling (.token .int) '0' (x :: w)
  | float {c : Char} {ds f : List Char} (hc : c.isDigit) (hds : ds.all Char.isDigit)
      (hzero : c = '0' → ds = []) (hf : f ∈ fraction) :
      Spelling (.token .float) c (ds ++ '.' :: f)
  | point {d : Char} {f : List Char} (hd : d.isDigit) (hf : f ∈ fraction) :
      Spelling (.token .float) '.' (d :: f)
  | symbol {c : Char} {w : List Char} {kind : TokenKind} (h : (c :: w, kind) ∈ symbols) :
      Spelling (.token kind) c w

/-- A text with the pattern of a class is spelled in one of its ways. -/
theorem Spelling.of_matches {cls : Class} {c : Char} {w : List Char} (h : cls.Matches (c :: w)) :
    Spelling cls c w := by
  cases cls with
  | stray => cases h
  | blank =>
    obtain ⟨hc, hw⟩ := isClass_blank.cons_mem_oneOrMore.mp h
    exact .blank hc hw
  | token kind =>
    by_cases hkind : kind ∉ [TokenKind.int, .float, .ident]
    · rcases (mem_pattern_iff hkind).mp h with h | h
      · exact .symbol h
      · exact .keyword h
    · rw [not_not, List.mem_cons, List.mem_cons, List.mem_singleton] at hkind
      rcases hkind with rfl | rfl | rfl
      · rcases cons_mem_integer.mp h with ⟨hc, hzero, hw⟩ | ⟨rfl, hw⟩ | ⟨rfl, x, w, rfl, hx, hw⟩
        · exact .decimal hc hzero hw
        · exact .octal hw
        · exact .hex hx hw
      · rcases cons_mem_float.mp h with ⟨ds, f, rfl, hds, hf⟩ | ⟨rfl, d, f, rfl, hd, hf⟩
        · obtain ⟨hc, hds, hzero⟩ := cons_mem_whole.mp hds
          exact .float hc hds hzero hf
        · exact .point hd hf
      · obtain ⟨hc, hw⟩ := isClass_letter.cons_mem_mul.mp h
        exact .word hc (isClass_alphanumeric.mem_kstar.mp hw)

theorem kind_of_mem_keywords {w : List Char} {kind : TokenKind} (h : (w, kind) ∈ keywords) :
    kind ∉ [TokenKind.int, .float, .ident] := by
  have htable : ∀ entry ∈ keywords, entry.2 ∉ [TokenKind.int, .float, .ident] := by decide
  exact htable _ h

theorem kind_of_mem_symbols {w : List Char} {kind : TokenKind} (h : (w, kind) ∈ symbols) :
    kind ∉ [TokenKind.int, .float, .ident] := by
  have htable : ∀ entry ∈ symbols, entry.2 ∉ [TokenKind.int, .float, .ident] := by decide
  exact htable _ h

/-- What is spelled in one of the ways has the pattern. -/
theorem Spelling.matches {cls : Class} {c : Char} {w : List Char} (h : Spelling cls c w) :
    cls.Matches (c :: w) := by
  cases h with
  | blank hc hw => exact isClass_blank.cons_mem_oneOrMore.mpr ⟨hc, hw⟩
  | word hc hw =>
    exact isClass_letter.cons_mem_mul.mpr ⟨hc, isClass_alphanumeric.mem_kstar.mpr hw⟩
  | keyword h => exact (mem_pattern_iff (kind_of_mem_keywords h)).mpr (.inr h)
  | decimal hc hzero hw => exact cons_mem_integer.mpr (.inl ⟨hc, hzero, hw⟩)
  | octal hw => exact cons_mem_integer.mpr (.inr (.inl ⟨rfl, hw⟩))
  | hex hx hw => exact cons_mem_integer.mpr (.inr (.inr ⟨rfl, _, _, rfl, hx, hw⟩))
  | float hc hds hzero hf =>
    exact cons_mem_float.mpr (.inl ⟨_, _, rfl, cons_mem_whole.mpr ⟨hc, hds, hzero⟩, hf⟩)
  | point hd hf => exact cons_mem_float.mpr (.inr ⟨rfl, _, _, rfl, hd, hf⟩)
  | symbol h => exact (mem_pattern_iff (kind_of_mem_symbols h)).mpr (.inl h)

/-- No pattern has the empty text. So every lexeme takes a character off, and a text is cut into
finitely many. -/
theorem Class.Matches.ne_nil {cls : Class} {w : List Char} (h : cls.Matches w) : w ≠ [] := by
  rintro rfl
  cases cls with
  | stray => cases h
  | blank => exact isClass_blank.nil_notMem_mul h
  | token kind =>
    by_cases hkind : kind ∉ [TokenKind.int, .float, .ident]
    · have hsymbols : symbols.all fun entry => entry.1 ≠ [] := by decide
      have hkeywords : keywords.all fun entry => entry.1 ≠ [] := by decide
      rcases (mem_pattern_iff hkind).mp h with h | h
      · exact of_decide_eq_true (List.all_eq_true.mp hsymbols _ h) rfl
      · exact of_decide_eq_true (List.all_eq_true.mp hkeywords _ h) rfl
    · rw [not_not, List.mem_cons, List.mem_cons, List.mem_singleton] at hkind
      rcases hkind with rfl | rfl | rfl
      · exact nil_notMem_integer h
      · exact nil_notMem_float h
      · exact isClass_letter.nil_notMem_mul h

/-! ### First characters

What begins a text decides between blanks, words, numbers and symbols, except that a point may begin
a float and a symbol. The facts about the tables of symbols and keywords are decided by going
through them. -/

theorem not_isBlank_of_isLetter {c : Char} (h : isLetter c) : ¬ isBlank c := by
  simp only [isBlank, decide_eq_true_eq]
  rintro (rfl | rfl | rfl) <;> exact absurd h (by decide)

theorem not_isBlank_of_isDigit {c : Char} (h : c.isDigit) : ¬ isBlank c := by
  simp only [isBlank, decide_eq_true_eq]
  rintro (rfl | rfl | rfl) <;> cases h

theorem letters_of_mem_keywords {c : Char} {w : List Char} {kind : TokenKind}
    (h : (c :: w, kind) ∈ keywords) : isLetter c ∧ w.all Char.isAlphanum := by
  have htable : keywords.all fun entry =>
    entry.1.head?.all isLetter && entry.1.tail.all Char.isAlphanum := by decide
  exact (Bool.and_eq_true _ _).mp (List.all_eq_true.mp htable _ h)

/-- What begins a symbol begins nothing else, a point apart. -/
theorem punctuation_of_mem_symbols {c : Char} {w : List Char} {kind : TokenKind}
    (h : (c :: w, kind) ∈ symbols) : ¬ isBlank c ∧ ¬ isLetter c ∧ ¬ c.isDigit := by
  have htable : symbols.all fun entry => entry.1.head?.all fun c =>
    ¬ isBlank c ∧ ¬ isLetter c ∧ ¬ c.isDigit := by decide
  exact of_decide_eq_true (List.all_eq_true.mp htable _ h)

/-- The only symbol with a point is the point. -/
theorem point_of_mem_symbols {c : Char} {w : List Char} {kind : TokenKind}
    (h : (c :: w, kind) ∈ symbols) : ¬ ('.' ∈ c :: w ∧ w ≠ []) := by
  have htable : symbols.all fun entry => ¬ ('.' ∈ entry.1 ∧ entry.1.tail ≠ []) := by decide
  exact of_decide_eq_true (List.all_eq_true.mp htable _ h)

theorem lookup_of_mem_symbols {w : List Char} {kind : TokenKind} (h : (w, kind) ∈ symbols) :
    symbols.lookup w = some kind := by
  have htable : symbols.all fun entry => symbols.lookup entry.1 = some entry.2 := by decide
  exact of_decide_eq_true (List.all_eq_true.mp htable _ h)

theorem lookup_of_mem_keywords {w : List Char} {kind : TokenKind} (h : (w, kind) ∈ keywords) :
    keywords.lookup w = some kind := by
  have htable : keywords.all fun entry => keywords.lookup entry.1 = some entry.2 := by decide
  exact of_decide_eq_true (List.all_eq_true.mp htable _ h)

/-! ### One class for a text

With the first character and the presence of a point everything is decided, and the decision can be
written down without the patterns. -/

/-- The class of a text that has a pattern. A keyword is no word, and a point makes a float of
anything but itself. -/
def classOf (c : Char) (w : List Char) : Class :=
  if isBlank c then .blank
  else if isLetter c then .token ((keywords.lookup (c :: w)).getD .ident)
  else if '.' ∈ c :: w ∧ w ≠ [] then .token .float
  else if c.isDigit then .token .int
  else .token ((symbols.lookup (c :: w)).getD .unknown)

theorem classOf_of_isDigit {c : Char} {w : List Char} (hc : c.isDigit) (hw : '.' ∉ w) :
    classOf c w = .token .int := by
  have hpoint : ¬ ('.' ∈ c :: w ∧ w ≠ []) := by
    rintro ⟨hmem, -⟩
    rcases List.mem_cons.mp hmem with rfl | hmem
    · cases hc
    · exact hw hmem
  rw [classOf, if_neg (not_isBlank_of_isDigit hc), if_neg (not_isLetter_of_isDigit hc),
    if_neg hpoint, if_pos hc]

theorem point_notMem_of_all {p : Char → Bool} {w : List Char} (h : w.all p) (hp : ¬ p '.') :
    '.' ∉ w :=
  fun hmem => hp (List.all_eq_true.mp h '.' hmem)

/-- A text has the pattern of its class, and of no other but that of words. -/
theorem Spelling.eq_classOf {cls : Class} {c : Char} {w : List Char} (h : Spelling cls c w) :
    cls = classOf c w ∨ cls = .token .ident := by
  cases h with
  | blank hc hw => exact .inl (by rw [classOf, if_pos hc])
  | word hc hw => exact .inr rfl
  | keyword h =>
    have hletter := (letters_of_mem_keywords h).1
    left
    rw [classOf, if_neg (not_isBlank_of_isLetter hletter), if_pos hletter,
      lookup_of_mem_keywords h]
    rfl
  | decimal hc _ hw =>
    exact .inl (classOf_of_isDigit hc (point_notMem_of_all hw (by decide))).symm
  | octal hw =>
    exact .inl (classOf_of_isDigit rfl (point_notMem_of_all hw (by decide))).symm
  | hex hx hw =>
    refine .inl (classOf_of_isDigit rfl ?_).symm
    rw [List.mem_cons, not_or]
    exact ⟨by rcases hx with rfl | rfl <;> decide, point_notMem_of_all hw (by decide)⟩
  | @float c ds f hc _ _ _ =>
    have hpoint : '.' ∈ c :: (ds ++ '.' :: f) ∧ ds ++ '.' :: f ≠ [] := by simp
    left
    rw [classOf, if_neg (not_isBlank_of_isDigit hc), if_neg (not_isLetter_of_isDigit hc),
      if_pos hpoint]
  | point hd hf =>
    left
    rw [classOf, if_neg (by decide), if_neg (by decide),
      if_pos ⟨List.mem_cons_self, List.cons_ne_nil _ _⟩]
  | @symbol c w kind h =>
    obtain ⟨hblank, hletter, hdigit⟩ := punctuation_of_mem_symbols h
    left
    rw [classOf, if_neg hblank, if_neg hletter, if_neg (point_of_mem_symbols h), if_neg hdigit,
      lookup_of_mem_symbols h]
    rfl

/-- Two classes with a common text are the same, unless one of them is that of words. -/
theorem Spelling.unique {cls cls' : Class} {c : Char} {w : List Char} (h : Spelling cls c w)
    (h' : Spelling cls' c w) :
    cls = cls' ∨ cls = .token .ident ∨ cls' = .token .ident := by
  rcases h.eq_classOf with hcls | hcls
  · rcases h'.eq_classOf with hcls' | hcls'
    · exact .inl (hcls.trans hcls'.symm)
    · exact .inr (.inr hcls')
  · exact .inr (.inl hcls)

end Lexeme

end ArrowCalc
