import ArrowCalc.Token.Stream
import Mathlib.Data.List.Basic

/-!
# The tokens that a source can spell

Two kinds of token have no spelling: the mark in front of a function literal and the end of the
input. A source never gives them, so in the tokens of a source every mark was put there by a marker
and the end of the input is behind the list and not in it.

## Main results

* `TokenStream.isSpelled_of_mem_ofSource` — the tokens of a source have spelled kinds
-/

namespace ArrowCalc

/-- The kinds that some text gives. -/
def TokenKind.IsSpelled (kind : TokenKind) : Prop := kind ≠ .func ∧ kind ≠ .eof

instance (kind : TokenKind) : Decidable kind.IsSpelled := inferInstanceAs (Decidable (_ ∧ _))

namespace Lexeme

/-- A class whose token, if it is one, is of a kind that some text gives. -/
def Class.IsSpelled (cls : Class) : Prop := ∀ kind, cls = .token kind → kind.IsSpelled

theorem Class.isSpelled_token {kind : TokenKind} (h : kind.IsSpelled) :
    (Class.token kind).IsSpelled := by
  rintro _ ⟨⟩
  exact h

/-- What a table has for a word is one of its kinds. -/
theorem of_lookup {P : TokenKind → Prop} {table : List (List Char × TokenKind)}
    (htable : ∀ entry ∈ table, P entry.2) {word : List Char} {kind : TokenKind}
    (h : table.lookup word = some kind) : P kind := by
  obtain ⟨before, after, rfl, -⟩ := List.lookup_eq_some_iff.mp h
  exact htable (word, kind) (by simp)

theorem of_symbol? {P : TokenKind → Prop} (htable : ∀ entry ∈ symbols, P entry.2) {c : Char}
    {rest : List Char} {kind : TokenKind} {n : ℕ} (h : symbol? c rest = some (kind, n)) :
    P kind := by
  rw [symbol?] at h
  split at h
  · next found hpair =>
    obtain ⟨rfl, -⟩ := Prod.mk.inj (Option.some.inj h)
    exact of_lookup htable hpair
  · obtain ⟨found, hsingle, heq⟩ := Option.map_eq_some_iff.mp h
    obtain ⟨rfl, -⟩ := Prod.mk.inj heq
    exact of_lookup htable hsingle

theorem isSpelled_symbols : ∀ entry ∈ symbols, entry.2.IsSpelled := by decide

theorem isSpelled_keywords : ∀ entry ∈ keywords, entry.2.IsSpelled := by decide

theorem isSpelled_number (c : Char) (rest : List Char) : (number c rest).1.IsSpelled := by
  rw [number]
  split <;> exact ⟨nofun, nofun⟩

theorem isSpelled_word (word : List Char) : ((keywords.lookup word).getD .ident).IsSpelled := by
  cases h : keywords.lookup word with
  | none => exact ⟨nofun, nofun⟩
  | some kind => exact of_lookup isSpelled_keywords h

theorem isSpelled_scan (c : Char) (rest : List Char) : (scan c rest).1.IsSpelled := by
  rw [scan]
  split
  · exact nofun
  split
  · exact Class.isSpelled_token (isSpelled_word _)
  split
  · exact Class.isSpelled_token (isSpelled_number c rest)
  split
  · exact Class.isSpelled_token ⟨nofun, nofun⟩
  split
  · next kind n h => exact Class.isSpelled_token (of_symbol? isSpelled_symbols h)
  · exact nofun

/-- Every lexeme of a text is the first one of what the text has from there on. -/
theorem exists_scan_of_mem_cut {x : Lexeme} {cs : List Char} (h : x ∈ cut cs) :
    ∃ c rest, x = ⟨(scan c rest).1, c :: rest.take (scan c rest).2⟩ := by
  fun_induction cut cs with
  | case1 => cases h
  | case2 c rest cls n hscan ih =>
    rcases List.mem_cons.mp h with rfl | h
    · exact ⟨c, rest, by rw [hscan]⟩
    · exact ih h

theorem isSpelled_of_mem_cut {x : Lexeme} {cs : List Char} (h : x ∈ cut cs) :
    x.cls.IsSpelled := by
  obtain ⟨c, rest, rfl⟩ := exists_scan_of_mem_cut h
  exact isSpelled_scan c rest

/-- The token of a lexeme is of the lexeme's kind, or unknown text. -/
theorem isSpelled_content {x : Lexeme} (h : x.cls.IsSpelled) : x.content.1.IsSpelled := by
  have hunknown : TokenKind.IsSpelled .unknown := ⟨nofun, nofun⟩
  rw [content]
  split
  · split
    · exact ⟨nofun, nofun⟩
    · exact hunknown
  · exact ⟨nofun, nofun⟩
  · exact ⟨nofun, nofun⟩
  · exact ⟨nofun, nofun⟩
  · next kind _ _ _ _ hkind => exact h kind hkind
  · exact hunknown
  · exact hunknown

end Lexeme

theorem Cursor.isSpelled_of_token? {cur : Cursor} {x : Lexeme} {t : Token}
    (h : cur.token? x = some t) (hx : x.cls.IsSpelled) : t.kind.IsSpelled := by
  rw [token?] at h
  split at h
  · cases h
  · split at h
    · cases h
      exact ⟨nofun, nofun⟩
    · cases h
  · cases h
    exact Lexeme.isSpelled_content hx

/-- Every token of a list of lexemes is the token of one of them, at some place. -/
theorem exists_token?_of_mem_readings {cur : Cursor} {xs : List Lexeme} {r : Reading}
    (h : r ∈ readings cur xs) : ∃ x ∈ xs, ∃ place : Cursor, place.token? x = some r.token := by
  induction xs generalizing cur with
  | nil => cases h
  | cons x xs ih =>
    have hrest : r ∈ readings (cur.advance x) xs →
        ∃ y ∈ x :: xs, ∃ place : Cursor, place.token? y = some r.token := by
      intro h
      obtain ⟨y, hy, place, hplace⟩ := ih h
      exact ⟨y, List.mem_cons_of_mem x hy, place, hplace⟩
    rw [readings] at h
    split at h
    · next token htoken =>
      rcases List.mem_cons.mp h with rfl | h
      · exact ⟨x, List.mem_cons_self, cur, htoken⟩
      · exact hrest h
    · exact hrest h

/-- Every token of a source is the token of one of its lexemes. -/
theorem TokenStream.exists_lexeme_of_mem_ofSource {source : String} {t : Token}
    (h : t ∈ (ofSource source).tokens) :
    ∃ x ∈ Lexeme.cut source.toList, ∃ place : Cursor, place.token? x = some t := by
  obtain ⟨r, hr, rfl⟩ := List.mem_map.mp h
  exact exists_token?_of_mem_readings hr

/-- **The kinds of a source.** No text gives a mark or the end of the input. -/
theorem TokenStream.isSpelled_of_mem_ofSource {source : String} {t : Token}
    (h : t ∈ (ofSource source).tokens) : t.kind.IsSpelled := by
  obtain ⟨x, hx, place, ht⟩ := exists_lexeme_of_mem_ofSource h
  exact Cursor.isSpelled_of_token? ht (Lexeme.isSpelled_of_mem_cut hx)

end ArrowCalc
