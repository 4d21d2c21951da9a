import ArrowCalc.Proofs.Parser.Acceptance
import ArrowCalc.Proofs.Parser.Expectation
import ArrowCalc.Proofs.Parser.Locality

/-!
# Where a syntax error is reported, and what it says

The parser reports the first token that cannot be right. The tokens in front of it begin some
program, and with it they begin none. What the parser says it expected is no guess either: behind
the tokens in front of the error, a token of this kind leads on to a program.

That no program goes on with the offending token is a matter of lookahead: the parser has not seen
more than this token when it fails, so it fails on every list that begins like this one. That the
expected token leads on to a program is a matter of the grammar: the phrases that were begun are
completed.

## Main definitions

* `TokenStream.Accepted` — the tokens are read as a program
* `TokenStream.Diagnosis` — what an error has to be

## Main results

* `TokenStream.readProgram_diagnoses` — the error is where the input stops being the beginning of a
  program, and names a way to go on
-/

namespace ArrowCalc

open Grammar ArrowCalc.Parser

namespace TokenStream

/-- The tokens, with the end of the input behind them, are read as a program. -/
def Accepted (ts : List Token) : Prop :=
  ∃ eof es, (⟨ts, eof⟩ : TokenStream).readProgram.1 = .block es

/-- Where the end of the input stands makes no difference. -/
theorem accepted_iff (ts : List Token) (eof : Span) :
    Accepted ts ↔ ∃ es, (program eof ts).result = .ok es := by
  constructor
  · rintro ⟨eof', es, h⟩
    rw [readProgram_eq_block_iff] at h
    exact ⟨es, result_of_program (s := ⟨ts, eof⟩) h⟩
  · rintro ⟨es, h⟩
    refine ⟨eof, es, ?_⟩
    rw [readProgram, h]

/-- A program of the grammar is accepted. -/
theorem accepted_of_isProgram {ts : List Token} (h : IsProgram ts) : Accepted ts := by
  obtain ⟨es, h⟩ := h
  have hread := program_complete (.point 0 0) h (show peek [] = .eof from rfl)
  rw [List.append_nil] at hread
  exact (accepted_iff ts _).mpr ⟨es, Outcome.result_eq_ok_iff.mpr ⟨_, hread⟩⟩

/-- The token behind `pre` is the first one of the rest, or the end of the input. -/
theorem get_length_append (pre rest : List Token) (eof : Span) :
    (get ⟨pre ++ rest, eof⟩ pre.length).kind = peek rest ∧
      (get ⟨pre ++ rest, eof⟩ pre.length).span = peekSpan eof rest := by
  have hget : get ⟨pre ++ rest, eof⟩ pre.length = get ⟨rest, eof⟩ 0 := by
    have hdrop := get_drop ⟨pre ++ rest, eof⟩ pre.length 0
    rw [drop, List.drop_left] at hdrop
    exact hdrop.symm
  rw [hget]
  cases rest <;> exact ⟨rfl, rfl⟩

/-- Up to the token behind `pre`, a stream is `pre` and a token of the next kind. -/
theorem take_withEnds (pre rest us : List Token) (eof : Span) :
    ∃ rest', (withEnds ⟨pre ++ rest, eof⟩ 1).take (pre.length + 1) ++ us = pre ++ rest' ∧
      peek rest' = peek rest := by
  refine ⟨(rest ++ [Token.eof eof]).take 1 ++ us, ?_, ?_⟩
  · rw [withEnds, List.append_assoc, List.take_length_add_append, List.append_assoc]
    rfl
  · cases rest <;> rfl

/-- The reading of `s` stopped behind `k` tokens with the given message, which is about the token
that follows them and says that one of kind `wanted` was expected. The tokens in front begin a
program, together with the next one they begin none, and they go on to a program with any token of
the kind that was expected; where that is the end of the input, they are a program. -/
structure Diagnosis (s : TokenStream) (message : String) (k : ℕ) (wanted : TokenKind) : Prop where
  rejected : ¬ Accepted s.tokens
  le_length : k ≤ s.tokens.length
  result : (program s.eof s.tokens).result =
    .error ⟨.expected wanted (s.get k).kind, (s.get k).span⟩
  message_eq : message = "Expected " ++ wanted.text ++ ", got " ++ (s.get k).kind.text
  consumed : s.readProgram.2 = s.drop k
  begins : ∃ us, Accepted (s.tokens.take k ++ us)
  ends : ∀ us, ¬ Accepted ((s.withEnds 1).take (k + 1) ++ us)
  continues :
    if wanted = .eof then Accepted (s.tokens.take k)
    else ∀ t : Token, t.kind = wanted → t.IsComplete → ∃ us, Accepted (s.tokens.take k ++ t :: us)

/-- A malformed tree comes from a failed reading. -/
theorem verdict_of_malformed {s : TokenStream} {message : String}
    (h : s.readProgram.1 = .malformed message) :
    ∃ e rest, (program s.eof s.tokens).verdict = .error (e, rest) ∧
      (program s.eof s.tokens).result = .error e ∧ message = e.message ∧
      s.readProgram.2 = { s with tokens := rest } := by
  rw [readProgram] at h ⊢
  cases ho : program s.eof s.tokens with
  | ok es rest lt =>
    rw [ho] at h
    cases h
  | fail e rest =>
    rw [ho] at h
    cases h
    exact ⟨e, rest, rfl, rfl, rfl, rfl⟩

/-- **A syntax error is diagnosed at the first wrong token**, on every list of tokens in which the
identifiers and integer literals carry their payloads. -/
theorem readProgram_diagnoses (s : TokenStream) (hcomplete : ∀ t ∈ s.tokens, t.IsComplete)
    {message : String} (h : s.readProgram.1 = .malformed message) :
    ∃ k wanted, Diagnosis s message k wanted := by
  obtain ⟨e, rest, hverdict, hresult, rfl, hrest⟩ := verdict_of_malformed h
  obtain ⟨ts, eof⟩ := s
  obtain ⟨pre, rfl, hlocal⟩ := program_error_of_peek hverdict
  obtain ⟨hkind, hspan⟩ := get_length_append pre rest eof
  -- the error is about the token behind `pre`, and what it expects leads on to a program
  obtain ⟨wanted, rfl, hwanted⟩ : ∃ wanted, e = unexpected eof wanted rest ∧
      if wanted = .eof then IsProgram pre
      else ∀ t : Token, t.kind = wanted → t.IsComplete → ∃ us, IsProgram (pre ++ t :: us) := by
    rcases program_lacks hcomplete hverdict with ⟨pre', wanted, hpre, hne, he, hgoes⟩ |
      ⟨pre', hpre, he, hprogram⟩
    · obtain rfl := List.append_cancel_right hpre
      exact ⟨wanted, he, by rwa [if_neg hne]⟩
    · obtain rfl := List.append_cancel_right hpre
      exact ⟨.eof, he, by rwa [if_pos rfl]⟩
  have hfails : ∀ us, ¬ Accepted ((withEnds ⟨pre ++ rest, eof⟩ 1).take (pre.length + 1) ++ us) := by
    intro us haccepted
    obtain ⟨rest', htake, hpeek⟩ := take_withEnds pre rest us eof
    obtain ⟨es, hok⟩ := (accepted_iff _ eof).mp haccepted
    obtain ⟨e', herror⟩ := hlocal rest' hpeek
    obtain ⟨rest'', hread⟩ := Outcome.result_eq_ok_iff.mp hok
    rw [htake, herror] at hread
    cases hread
  have htake : (pre ++ rest).take pre.length = pre := List.take_left
  refine ⟨pre.length, wanted, ?_, ?_, ?_, ?_, ?_, ?_, hfails, ?_⟩
  · rw [accepted_iff _ eof, hresult]
    rintro ⟨es, hok⟩
    cases hok
  · rw [List.length_append]
    exact Nat.le_add_right _ _
  · rw [hresult, hkind, hspan]
    rfl
  · rw [hkind]
    rfl
  · rw [hrest, drop, List.drop_left]
  · rw [htake]
    by_cases heof : wanted = .eof
    · rw [if_pos heof] at hwanted
      exact ⟨[], accepted_of_isProgram (by rwa [List.append_nil])⟩
    · rw [if_neg heof] at hwanted
      obtain ⟨t, ht, htcomplete⟩ := exists_isComplete wanted
      obtain ⟨us, hus⟩ := hwanted t ht htcomplete
      exact ⟨t :: us, accepted_of_isProgram hus⟩
  · rw [htake]
    split at hwanted
    · next heof =>
      rw [if_pos heof]
      exact accepted_of_isProgram hwanted
    · next heof =>
      rw [if_neg heof]
      intro t ht htcomplete
      obtain ⟨us, hus⟩ := hwanted t ht htcomplete
      exact ⟨us, accepted_of_isProgram hus⟩

/-- The tokens of `f(1,)` lack an argument behind the comma. -/
theorem readProgram_diagnoses_call :
    let s : TokenStream :=
      ⟨[⟨.ident, some (.text "f"), ⟨1, 1, 2⟩⟩, ⟨.lparen, none, ⟨1, 2, 3⟩⟩,
        ⟨.int, some (.int 1), ⟨1, 3, 4⟩⟩, ⟨.comma, none, ⟨1, 4, 5⟩⟩,
        ⟨.rparen, none, ⟨1, 5, 6⟩⟩], ⟨1, 6, 6⟩⟩
    (∀ t ∈ s.tokens, t.IsComplete) ∧ s.readProgram.1 = .malformed "Expected LParen, got RParen" ∧
      ∃ k wanted, Diagnosis s "Expected LParen, got RParen" k wanted := by
  intro s
  have hcomplete : ∀ t ∈ s.tokens, t.IsComplete := by
    simp [s, Token.IsComplete, Token.name?, Token.int?]
  have hread : s.readProgram.1 = .malformed "Expected LParen, got RParen" := by cbv
  exact ⟨hcomplete, hread, readProgram_diagnoses s hcomplete hread⟩

end TokenStream

end ArrowCalc
