import ArrowCalc.Proofs.Decimal.Arithmetic
import ArrowCalc.Proofs.Lexeme.Literals

/-!
# What lexemes denote

A lexeme is read as a token: its kind, and for literals and words a payload. What the payload is, is
said here without the functions that compute it. An integer carries the number that the literal
writes, as long as it writes one and the number fits. A float carries the double nearest to the
decimal number that the literal writes. There is only one such double, so that nothing is left open.

Together with the patterns this gives the tokens of a source text: they are what the lexemes of the
text denote, without the blanks, and without the line breaks inside parentheses. Two things have to
be followed from lexeme to lexeme for that, the depth of the parentheses and the place in the text.
The place does not matter for the kinds and payloads, so `Yields` follows the depth alone.

## Main definitions

* `Lexeme.Denotes` — the kind and the payload of a lexeme
* `Lexeme.Yields` — the kinds and payloads that a list of lexemes gives

## Main results

* `Lexeme.denotes_content`, `Lexeme.Denotes.content_eq` — a lexeme denotes its content, and
  nothing else
* `TokenStream.contents_iff_lexes` — the tokens of a source
-/

namespace ArrowCalc

open Computability Lexeme Pattern

open Literal

namespace Lexeme

/-! ### Contents -/

/-- The kind and the payload of a lexeme. A stray character is unknown text, and so is an integer
literal without digits, or with a value that does not fit. -/
inductive Denotes : Lexeme → TokenKind → Option Payload → Prop where
  | int {w : List Char} {n : ℕ} (hvalue : Writes w n) (hfits : n < 2 ^ 63) :
      Denotes ⟨.token .int, w⟩ .int (some (.int n))
  | large {w : List Char} (hlarge : IsOutOfRange w) :
      Denotes ⟨.token .int, w⟩ .unknown (some (.text (String.ofList w)))
  | float {w : List Char} {d : Decimal} {x : Float} (hd : LongestDecimal w d)
      (hx : Double.Nearest d.value x.toModel.unpack) :
      Denotes ⟨.token .float, w⟩ .float (some (.float x))
  | true : Denotes ⟨.token .bool, "true".toList⟩ .bool (some (.bool Bool.true))
  | false : Denotes ⟨.token .bool, "false".toList⟩ .bool (some (.bool Bool.false))
  | ident {w : List Char} : Denotes ⟨.token .ident, w⟩ .ident (some (.text (String.ofList w)))
  | plain {kind : TokenKind} {w : List Char}
      (hkind : kind ∉ [TokenKind.int, .float, .bool, .ident]) : Denotes ⟨.token kind, w⟩ kind none
  | stray {w : List Char} : Denotes ⟨.stray, w⟩ .unknown (some (.text (String.ofList w)))

/-- The kinds and payloads that lexemes give where `depth` parentheses are open. Blanks give
nothing, and neither do line breaks between parentheses. -/
inductive Yields : ℤ → List Lexeme → List (TokenKind × Option Payload) → Prop where
  | nil {depth : ℤ} : Yields depth [] []
  | blank {depth : ℤ} {w : List Char} {xs : List Lexeme} {ts : List (TokenKind × Option Payload)}
      (hrest : Yields depth xs ts) : Yields depth (⟨.blank, w⟩ :: xs) ts
  | enclosed {depth : ℤ} {w : List Char} {xs : List Lexeme}
      {ts : List (TokenKind × Option Payload)} (hdepth : depth ≠ 0) (hrest : Yields depth xs ts) :
      Yields depth (⟨.token .newline, w⟩ :: xs) ts
  | token {depth : ℤ} {x : Lexeme} {xs : List Lexeme} {kind : TokenKind} {payload : Option Payload}
      {ts : List (TokenKind × Option Payload)} (hbreak : x.cls = .token .newline → depth = 0)
      (hx : Denotes x kind payload) (hrest : Yields (depth + kind.nesting) xs ts) :
      Yields depth (x :: xs) ((kind, payload) :: ts)

/-- The lexeme has the pattern of its class, or it is stray. -/
def IsGenuine (x : Lexeme) : Prop := x.cls.Matches x.text ∨ x.cls = .stray

theorem IsGenuine.mem_pattern {kind : TokenKind} {w : List Char}
    (h : IsGenuine ⟨.token kind, w⟩) : w ∈ kind.pattern :=
  h.resolve_right fun h => by cases h

theorem IsFirst.isGenuine {text : List Char} {x : Lexeme} (h : IsFirst text x) : x.IsGenuine := by
  cases h with
  | longest hwins _ _ => exact .inl hwins.1
  | stray _ _ => exact .inr rfl

theorem Lexes.isGenuine {text : List Char} {xs : List Lexeme} (h : Lexes text xs) :
    ∀ x ∈ xs, x.IsGenuine := by
  induction h with
  | nil => exact fun x hx => by cases hx
  | cons hfirst _ ih => exact List.forall_mem_cons.mpr ⟨hfirst.isGenuine, ih⟩

theorem content_of_notMem {kind : TokenKind} (hkind : kind ∉ [TokenKind.int, .float, .bool, .ident])
    (w : List Char) : content ⟨.token kind, w⟩ = (kind, none) := by
  cases kind <;> first | rfl | exact absurd (by decide) hkind

/-- Tokens have the kind of their lexeme, unless they are unknown. -/
theorem cls_of_content {x : Lexeme} (h : x.content.1 ≠ .unknown) :
    x.cls = .token x.content.1 := by
  obtain ⟨cls, w⟩ := x
  cases cls with
  | blank | stray => exact absurd rfl h
  | token kind =>
    by_cases hkind : kind ∈ [TokenKind.int, .float, .bool, .ident]
    · cases kind with
      | int =>
        cases hint : Literal.int? w with
        | some n => simp only [content, hint]
        | none => simp only [content, hint, ne_eq, not_true_eq_false] at h
      | float | bool | ident => rfl
      | _ => exact absurd hkind (by decide)
    · rw [content_of_notMem hkind]

/-- A lexeme denotes its content. -/
theorem Denotes.content_eq {x : Lexeme} {kind : TokenKind} {payload : Option Payload}
    (h : Denotes x kind payload) (hx : x.IsGenuine) : x.content = (kind, payload) := by
  cases h with
  | int hvalue hfits =>
    have hint := (int?_eq_some_iff hx.mem_pattern).mpr ⟨hvalue, hfits⟩
    simp only [content, hint]
  | large hlarge =>
    have hint := (int?_eq_none_iff hx.mem_pattern).mpr hlarge
    simp only [content, hint]
  | float hd hnearest =>
    simp only [content, float_of_longestDecimal hx.mem_pattern hd]
    rw [Double.Nearest.eq (Decimal.toFloat_nearest _) hnearest]
  | true => rfl
  | false => rfl
  | ident => rfl
  | plain hkind => exact content_of_notMem hkind _
  | stray => rfl

/-- The content of a lexeme is what it denotes. -/
theorem denotes_content {x : Lexeme} (hx : x.IsGenuine) (hblank : x.cls ≠ .blank) :
    Denotes x x.content.1 x.content.2 := by
  obtain ⟨cls, w⟩ := x
  cases cls with
  | blank => exact absurd rfl hblank
  | stray => exact .stray
  | token kind =>
    have hmatch : w ∈ kind.pattern := hx.mem_pattern
    by_cases hkind : kind ∉ [TokenKind.int, .float, .bool, .ident]
    · rw [content_of_notMem hkind]
      exact .plain hkind
    · rw [not_not, List.mem_cons, List.mem_cons, List.mem_cons, List.mem_singleton] at hkind
      rcases hkind with rfl | rfl | rfl | rfl
      · cases hint : Literal.int? w with
        | some n =>
          obtain ⟨hvalue, hfits⟩ := (int?_eq_some_iff hmatch).mp hint
          simp only [content, hint]
          exact .int hvalue hfits
        | none =>
          simp only [content, hint]
          exact .large ((int?_eq_none_iff hmatch).mp hint)
      · obtain ⟨d, hd⟩ := exists_longestDecimal hmatch
        simp only [content, float_of_longestDecimal hmatch hd]
        exact .float hd d.toFloat_nearest
      · rcases hmatch with rfl | rfl
        · exact .true
        · exact .false
      · exact .ident

/-- Literals that fail are no parentheses. -/
theorem Denotes.nesting_eq {x : Lexeme} {kind : TokenKind} {payload : Option Payload}
    (h : Denotes x kind payload) : x.nesting = kind.nesting := by
  cases h <;> rfl

/-- What is read as a line break is one. -/
theorem Denotes.cls_of_newline {x : Lexeme} {payload : Option Payload}
    (h : Denotes x .newline payload) : x.cls = .token .newline := by
  cases h with
  | plain _ => rfl

end Lexeme

/-! ### The tokens of lexemes -/

/-- The lexemes without a token. -/
theorem Cursor.token?_eq_none_iff {cur : Cursor} {x : Lexeme} :
    cur.token? x = none ↔ x.cls = .blank ∨ (x.cls = .token .newline ∧ cur.depth ≠ 0) := by
  rw [token?]
  split
  · next hblank => exact ⟨fun _ => .inl hblank, fun _ => rfl⟩
  · next hbreak =>
    rw [hbreak]
    by_cases hdepth : cur.depth = 0
    · simp [hdepth]
    · simp [hdepth]
  · next hblank hbreak =>
    constructor
    · intro h
      cases h
    · rintro (h | ⟨h, -⟩)
      · exact absurd h hblank
      · exact absurd h hbreak

/-- The token of a lexeme: a line break has no width, and any other token that of its text. -/
theorem Cursor.token?_eq_some {cur : Cursor} {x : Lexeme} {t : Token} (h : cur.token? x = some t) :
    (x.cls = .token .newline ∧ cur.depth = 0 ∧ t = ⟨.newline, none, cur.span⟩) ∨
      (x.cls ≠ .blank ∧ x.cls ≠ .token .newline ∧
        t = ⟨x.content.1, x.content.2, ⟨cur.line, cur.column, cur.column + x.text.length⟩⟩) := by
  rw [token?] at h
  split at h
  · cases h
  · next hbreak =>
    split at h
    · next hdepth =>
      cases h
      exact .inl ⟨hbreak, hdepth, rfl⟩
    · cases h
  · next hblank hbreak =>
    cases h
    exact .inr ⟨hblank, hbreak, rfl⟩

theorem Cursor.cls_of_token? {cur : Cursor} {x : Lexeme} {t : Token} (h : cur.token? x = some t)
    (hkind : t.kind ≠ .unknown) : x.cls = .token t.kind := by
  rcases token?_eq_some h with ⟨hbreak, -, rfl⟩ | ⟨-, -, rfl⟩
  · exact hbreak
  · exact cls_of_content hkind

/-- The tokens that lexemes give, read from a place on. -/
def Cursor.tokens (cur : Cursor) (xs : List Lexeme) : List Token :=
  (readings cur xs).map Reading.token

theorem Cursor.tokens_cons (cur : Cursor) (x : Lexeme) (xs : List Lexeme) :
    cur.tokens (x :: xs) = (cur.token? x).toList ++ (cur.advance x).tokens xs := by
  rw [tokens, readings]
  cases cur.token? x <;> rfl

theorem Cursor.tokens_append (cur : Cursor) (xs ys : List Lexeme) :
    cur.tokens (xs ++ ys) = cur.tokens xs ++ (cur.advanceAll xs).tokens ys := by
  rw [tokens, readings_append, List.map_append]
  rfl

theorem contents_cons (cur : Cursor) (x : Lexeme) (xs : List Lexeme) :
    contents cur (x :: xs) =
      (if x.cls = .blank ∨ (x.cls = .token .newline ∧ cur.depth ≠ 0) then [] else [x.content]) ++
        contents (cur.advance x) xs := by
  rw [contents, readings]
  cases htoken : cur.token? x with
  | none =>
    rw [if_pos (Cursor.token?_eq_none_iff.mp htoken)]
    rfl
  | some t =>
    have hsome : ¬ (x.cls = .blank ∨ (x.cls = .token .newline ∧ cur.depth ≠ 0)) := by
      rw [← Cursor.token?_eq_none_iff, htoken]
      intro h
      cases h
    rw [if_neg hsome, ← Cursor.content_of_token? htoken]
    rfl

namespace Lexeme

theorem Yields.contents_eq {depth : ℤ} {xs : List Lexeme} {ts : List (TokenKind × Option Payload)}
    (h : Yields depth xs ts) (hxs : ∀ x ∈ xs, x.IsGenuine) {cur : Cursor}
    (hcur : cur.depth = depth) : contents cur xs = ts := by
  induction h generalizing cur with
  | nil => rfl
  | blank _ ih =>
    rw [contents_cons, if_pos (.inl rfl)]
    exact ih (List.forall_mem_cons.mp hxs).2 hcur
  | enclosed hdepth _ ih =>
    rw [contents_cons, if_pos (.inr ⟨rfl, hcur ▸ hdepth⟩)]
    exact ih (List.forall_mem_cons.mp hxs).2 hcur
  | @token depth x xs kind payload ts hbreak hx _ ih =>
    obtain ⟨hgenuine, hxs⟩ := List.forall_mem_cons.mp hxs
    have hnot : ¬ (x.cls = .blank ∨ (x.cls = .token .newline ∧ cur.depth ≠ 0)) := by
      rintro (hblank | ⟨hnewline, hdepth⟩)
      · cases hx <;> cases hblank
      · exact hdepth (hcur.trans (hbreak hnewline))
    rw [contents_cons, if_neg hnot, hx.content_eq hgenuine, List.singleton_append, ih hxs]
    rw [Cursor.depth_advance, hx.nesting_eq, hcur]

theorem yields_contents {xs : List Lexeme} (hxs : ∀ x ∈ xs, x.IsGenuine) (cur : Cursor) :
    Yields cur.depth xs (contents cur xs) := by
  induction xs generalizing cur with
  | nil => exact .nil
  | cons x xs ih =>
    obtain ⟨hx, hxs⟩ := List.forall_mem_cons.mp hxs
    have ih := ih hxs (cur.advance x)
    rw [Cursor.depth_advance] at ih
    rw [contents_cons]
    split
    · next hnone =>
      obtain ⟨cls, w⟩ := x
      have hstay : cur.depth + nesting ⟨cls, w⟩ = cur.depth := by
        rcases hnone with rfl | ⟨rfl, -⟩ <;> exact Int.add_zero _
      rw [hstay] at ih
      rcases hnone with rfl | ⟨rfl, hdepth⟩
      · exact .blank ih
      · exact .enclosed hdepth ih
    · next hsome =>
      rw [not_or, not_and, not_not] at hsome
      have hdenotes := denotes_content hx hsome.1
      rw [hdenotes.nesting_eq] at ih
      exact .token hsome.2 hdenotes ih

end Lexeme

theorem TokenStream.map_content_ofSource (source : String) :
    (ofSource source).tokens.map Token.content = contents .start (cut source.toList) :=
  List.map_map

/-- **Lexing.** The tokens of a source are those that its lexemes denote, where the lexemes are the
longest texts with a pattern, and only blanks and the line breaks between parentheses are left
out. -/
theorem TokenStream.contents_iff_lexes (source : String) (ts : List (TokenKind × Option Payload)) :
    (ofSource source).tokens.map Token.content = ts ↔
      ∃ xs, Lexes source.toList xs ∧ Yields 0 xs ts := by
  rw [map_content_ofSource]
  constructor
  · rintro rfl
    have hlexes := lexes_iff.mpr (rfl : cut source.toList = cut source.toList)
    exact ⟨_, hlexes, yields_contents hlexes.isGenuine .start⟩
  · rintro ⟨xs, hlexes, hyields⟩
    rw [← lexes_iff.mp hlexes]
    exact hyields.contents_eq hlexes.isGenuine rfl

end ArrowCalc
