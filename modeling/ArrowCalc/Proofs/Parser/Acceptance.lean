import ArrowCalc.Proofs.Parser.Completeness
import ArrowCalc.Proofs.Parser.Soundness

/-!
# The language of the parser

The parser accepts exactly the programs of the marked grammar, and the tree it gives is the one of
the grammar. It works on every list of tokens, not only on those that a lexer produces: a mark may
stand anywhere, an identifier may lack its name, and anything may follow the end of the input.

## Main results

* `TokenStream.readProgram_eq_block_iff` — what is accepted, and with which trees
* `Grammar.Program.unique` — a program has one list of statements
* `TokenStream.readProgram_recognizes` — the parser decides the grammar
-/

namespace ArrowCalc

open Grammar ArrowCalc.Parser

namespace TokenStream

/-- The tokens in front of the first end of the input. -/
def beforeEof (s : TokenStream) : List Token := s.tokens.takeWhile (·.kind ≠ .eof)

theorem peek_dropWhile (ts : List Token) : peek (ts.dropWhile (·.kind ≠ .eof)) = .eof := by
  induction ts with
  | nil => rfl
  | cons t ts ih =>
    by_cases ht : t.kind = .eof
    · rw [List.dropWhile_cons_of_neg (by rw [ht]; decide)]
      exact ht
    · rw [List.dropWhile_cons_of_pos (by simpa using ht)]
      exact ih

/-- Reading a program gives a block or a syntax error. -/
theorem readProgram_cases (s : TokenStream) :
    (∃ es, (program s.eof s.tokens).result = .ok es ∧ s.readProgram.1 = .block es) ∨
      ∃ message, s.readProgram.1 = .malformed message := by
  rw [readProgram]
  cases h : (program s.eof s.tokens).result with
  | ok es => exact .inl ⟨es, rfl, rfl⟩
  | error e => exact .inr ⟨e.message, rfl⟩

theorem result_of_program {s : TokenStream} {es : List Expr} (h : Program .marked s.beforeEof es) :
    (program s.eof s.tokens).result = .ok es := by
  have hread := program_complete s.eof h (peek_dropWhile s.tokens)
  rw [beforeEof, List.takeWhile_append_dropWhile] at hread
  exact Outcome.result_eq_ok_iff.mpr ⟨_, hread⟩

/-- A block is read exactly from a program of the grammar. -/
theorem readProgram_eq_block_iff (s : TokenStream) (es : List Expr) :
    s.readProgram.1 = .block es ↔ Program .marked s.beforeEof es := by
  constructor
  · intro h
    rcases readProgram_cases s with ⟨es', hresult, htree⟩ | ⟨message, htree⟩
    · rw [htree] at h
      cases h
      obtain ⟨rest, hread⟩ := Outcome.result_eq_ok_iff.mp hresult
      exact program_sound hread
    · rw [htree] at h
      cases h
  · intro h
    rw [readProgram, result_of_program h]

/-- A malformed tree is read exactly from what is no program. -/
theorem readProgram_malformed_iff (s : TokenStream) :
    (∃ message, s.readProgram.1 = .malformed message) ↔
      ∀ es, ¬ Program .marked s.beforeEof es := by
  constructor
  · rintro ⟨message, hmalformed⟩ es h
    rw [(readProgram_eq_block_iff s es).mpr h] at hmalformed
    cases hmalformed
  · intro h
    rcases readProgram_cases s with ⟨es, -, htree⟩ | hmalformed
    · exact absurd ((readProgram_eq_block_iff s es).mp htree) (h es)
    · exact hmalformed

end TokenStream

/-- A list of tokens is a program in at most one way, since the parser finds only one. -/
theorem Grammar.Program.unique {ts : List Token} {es es' : List Expr} (h : Program .marked ts es)
    (h' : Program .marked ts es') : es = es' := by
  let s : TokenStream := ⟨ts, .point 0 0⟩
  have hts : s.beforeEof = ts := by
    have happend := takeWhile_append_of_peek h.kind_ne_eof (show peek [] = .eof from rfl)
    rwa [List.append_nil] at happend
  have hes := (s.readProgram_eq_block_iff es).mpr (hts.symm ▸ h)
  have hes' := (s.readProgram_eq_block_iff es').mpr (hts.symm ▸ h')
  rw [hes] at hes'
  injection hes'

/-- **The parser decides the marked grammar.** On any stream of tokens it gives a block exactly when
the tokens in front of the first end of the input are a program, the statements of the block are
those of the program, of which there is one list only, and otherwise the whole tree is malformed. -/
theorem TokenStream.readProgram_recognizes (s : TokenStream) :
    (∀ es, s.readProgram.1 = .block es ↔ Program .marked s.beforeEof es) ∧
      (∀ es es', Program .marked s.beforeEof es → Program .marked s.beforeEof es' → es = es') ∧
      ((∃ message, s.readProgram.1 = .malformed message) ↔
        ∀ es, ¬ Program .marked s.beforeEof es) :=
  ⟨s.readProgram_eq_block_iff, fun _ _ h h' => h.unique h', s.readProgram_malformed_iff⟩

end ArrowCalc
