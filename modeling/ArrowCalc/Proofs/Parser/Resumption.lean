import ArrowCalc.Proofs.Parser.Diagnosis

/-!
# Reading statement by statement

A stream can be read one statement at a time, and reading may go on behind a failure. Each reading
starts where the one before it stopped, and takes as much as it can: what it consumes is a
statement, and nothing longer at this place is one. A failed reading stops in front of the token
that its error is about.

That nothing longer is a statement has little to do with the productions themselves. The parser has
seen no more than the kind of the next token when it stops (`Local`), so it would stop at the same
place in the longer list. But a list that is a statement as a whole is read to its end
(`reads_of_derives`).

## Main definitions

* `TokenStream.afterReadings` — the stream behind any number of readings
* `TokenStream.Consumes` — what one reading does with a piece of the stream

## Main results

* `Parser.statement_greedy` — a statement is read as far as possible
* `TokenStream.readStatement_consumes` — every reading consumes some piece
* `TokenStream.readings_resume` — the pieces of all readings make up the stream
-/

namespace ArrowCalc

open Grammar ArrowCalc.Parser

/-! ### Greed -/

/-- A statement is read as far as possible: together with more tokens, of which the first is of the
kind that follows, it is no statement. -/
theorem Parser.statement_greedy {eof : Span} {ts rest : List Token} {e : Expr}
    (h : (statement eof ts).verdict = .ok (e, rest)) :
    ∃ piece, ts = piece ++ rest ∧ Derives .marked .statement piece e ∧
      ∀ more, more ≠ [] → peek more = peek rest →
        ∀ e', ¬ Derives .marked .statement (piece ++ more) e' := by
  obtain ⟨piece, rfl, hpiece⟩ := (soundBelow eof _).statement (Nat.lt_succ_self _) h
  obtain ⟨pre, us, hpre, hlocal⟩ := (localBelow eof _).statement _ (Nat.lt_succ_self _)
  obtain ⟨rfl, -⟩ := (hlocal us rfl).of_ok h
  obtain rfl := List.append_cancel_right hpre
  refine ⟨piece, rfl, hpiece, fun more hmore hpeek e' hlonger => ?_⟩
  -- in front of `more` the reading stops, although the phrase goes on to the end of `more`
  have hstops : (statement eof (piece ++ more)).verdict = .ok (e, more) :=
    ((hlocal more hpeek).of_ok h).2
  have hends := reads_of_derives eof hlonger [] (ends_of_kind rfl (by decide))
  rw [List.append_nil, hstops] at hends
  cases hends
  exact hmore rfl

namespace TokenStream

/-- The first token behind a beginning of a stream is of the kind that is peeked at there. -/
theorem peek_of_prefix_withEnds {piece rest more : List Token} {eof : Span} {m : ℕ}
    (hmore : more ≠ []) (h : piece ++ more <+: withEnds ⟨piece ++ rest, eof⟩ m) :
    peek more = peek rest := by
  rw [withEnds, List.append_assoc, List.prefix_append_right_inj] at h
  obtain ⟨t, us, rfl⟩ := List.exists_cons_of_ne_nil hmore
  cases rest with
  | cons u rest =>
    obtain ⟨rfl, -⟩ := List.cons_prefix_cons.mp h
    rfl
  | nil =>
    have hmem : t ∈ List.replicate m (Token.eof eof) := h.subset List.mem_cons_self
    rw [List.eq_of_mem_replicate hmem]
    rfl

/-! ### One reading -/

/-- The reading of a statement from `s` consumes `piece`. If it succeeds, `piece` is a statement
with the tree that was returned, and no longer beginning of the stream is a statement, the end of
the input included. If it fails, the next token is the one that the error names. -/
structure Consumes (s : TokenStream) (piece : List Token) : Prop where
  tokens_eq : s.tokens = piece ++ s.readStatement.2.tokens
  eof_eq : s.readStatement.2.eof = s.eof
  derives : ∀ e, s.readStatement.1 = .ok e → Derives .marked .statement piece e
  longest : ∀ e, s.readStatement.1 = .ok e → ∀ m longer, longer <+: s.withEnds m →
    piece.length < longer.length → ∀ e', ¬ Derives .marked .statement longer e'
  offending : ∀ error, s.readStatement.1 = .error error → ∃ wanted, error =
    ⟨.expected wanted (s.readStatement.2.get 0).kind, (s.readStatement.2.get 0).span⟩

/-- Every reading consumes some piece of the stream. -/
theorem readStatement_consumes (s : TokenStream) (hcomplete : ∀ t ∈ s.tokens, t.IsComplete) :
    ∃ piece, s.Consumes piece := by
  obtain ⟨ts, eof⟩ := s
  cases ho : statement eof ts with
  | ok e rest lt =>
    have hread : readStatement ⟨ts, eof⟩ = (.ok e, ⟨rest, eof⟩) := by rw [readStatement, ho]; rfl
    obtain ⟨piece, rfl, hpiece, hgreedy⟩ :=
      statement_greedy (congrArg Outcome.verdict ho : _ = Except.ok (e, rest))
    refine ⟨piece, by rw [hread], by rw [hread], ?_, ?_, ?_⟩ <;> rw [hread]
    · rintro _ ⟨⟩
      exact hpiece
    · rintro _ ⟨⟩ m longer hlonger hlength
      -- both are beginnings of the same stream, so the longer one goes on behind the piece
      obtain ⟨more, rfl⟩ : piece <+: longer := by
        refine List.prefix_of_prefix_length_le ?_ hlonger (Nat.le_of_lt hlength)
        rw [withEnds, List.append_assoc]
        exact List.prefix_append _ _
      have hmore : more ≠ [] := by
        rintro rfl
        rw [List.append_nil] at hlength
        exact Nat.lt_irrefl _ hlength
      exact hgreedy more hmore (peek_of_prefix_withEnds hmore hlonger)
    · rintro _ ⟨⟩
  | fail error rest =>
    have hread : readStatement ⟨ts, eof⟩ = (.error error, ⟨rest, eof⟩) := by
      rw [readStatement, ho]
      rfl
    obtain ⟨piece, wanted, rfl, -, rfl, -⟩ := (lacksBelow eof _).statement (Nat.lt_succ_self _)
      hcomplete (congrArg Outcome.verdict ho : _ = Except.error (error, rest))
    refine ⟨piece, by rw [hread], by rw [hread], ?_, ?_, ?_⟩ <;> rw [hread]
    · rintro _ ⟨⟩
    · rintro _ ⟨⟩
    · rintro _ ⟨⟩
      obtain ⟨hkind, hspan⟩ := get_length_append [] rest eof
      refine ⟨wanted, ?_⟩
      rw [unexpected, ← hkind, ← hspan]
      rfl

/-! ### Many readings -/

/-- The stream behind `n` readings of a statement, the failed ones included. -/
def afterReadings : ℕ → TokenStream → TokenStream
  | 0, s => s
  | n + 1, s => (afterReadings n s).readStatement.2

/-- What is behind a beginning of a stream is left of it when the beginning is consumed. -/
theorem drop_length_of_append {s : TokenStream} {consumed rest : List Token}
    (h : s.tokens = consumed ++ rest) : s.drop consumed.length = ⟨rest, s.eof⟩ := by
  rw [drop, h, List.drop_left]

/-- If every reading consumes its piece, the pieces consumed so far stand in front of the rest. -/
theorem tokens_eq_of_consumes {s : TokenStream} {pieces : ℕ → List Token}
    (h : ∀ n, (s.afterReadings n).Consumes (pieces n)) (n : ℕ) :
    s.tokens = (List.range n).flatMap pieces ++ (s.afterReadings n).tokens ∧
      (s.afterReadings n).eof = s.eof := by
  induction n with
  | zero => exact ⟨rfl, rfl⟩
  | succ n ih =>
    obtain ⟨htokens, heof⟩ := ih
    have hstep := h n
    refine ⟨?_, hstep.eof_eq.trans heof⟩
    rw [List.range_succ, List.flatMap_append, List.flatMap_singleton, List.append_assoc,
      afterReadings, ← hstep.tokens_eq]
    exact htokens

theorem isComplete_afterReadings {s : TokenStream} (hcomplete : ∀ t ∈ s.tokens, t.IsComplete)
    (n : ℕ) : ∀ t ∈ (s.afterReadings n).tokens, t.IsComplete := by
  induction n with
  | zero => exact hcomplete
  | succ n ih =>
    obtain ⟨piece, hpiece⟩ := readStatement_consumes _ ih
    intro t ht
    refine ih t ?_
    rw [hpiece.tokens_eq]
    exact List.mem_append_right piece ht

/-- **Readings are greedy and resume each other**, on every stream in which the identifiers and
integer literals carry their payloads. Each of them consumes a piece of what the earlier ones left,
so the pieces and the rest make up the stream, and reading a program at any time is the same as
reading it from a new stream of the tokens that were not consumed. -/
theorem readings_resume (s : TokenStream) (hcomplete : ∀ t ∈ s.tokens, t.IsComplete) :
    ∃ pieces : ℕ → List Token, ∀ n,
      (s.afterReadings n).Consumes (pieces n) ∧
      s.tokens = (List.range n).flatMap pieces ++ (s.afterReadings n).tokens ∧
      (s.afterReadings n).readProgram =
        (s.drop ((List.range n).flatMap pieces).length).readProgram := by
  have hexists := fun n => readStatement_consumes _ (isComplete_afterReadings hcomplete n)
  choose pieces hpieces using hexists
  refine ⟨pieces, fun n => ?_⟩
  obtain ⟨htokens, heof⟩ := tokens_eq_of_consumes hpieces n
  refine ⟨hpieces n, htokens, ?_⟩
  rw [drop_length_of_append htokens, ← heof]

/-- The tokens of `f(1)(2)`. The first reading stops behind one argument list, and the second one
reads the other as an expression in parentheses. -/
theorem readings_resume_calls :
    let s : TokenStream :=
      ⟨[⟨.ident, some (.text "f"), ⟨1, 1, 2⟩⟩, ⟨.lparen, none, ⟨1, 2, 3⟩⟩,
        ⟨.int, some (.int 1), ⟨1, 3, 4⟩⟩, ⟨.rparen, none, ⟨1, 4, 5⟩⟩, ⟨.lparen, none, ⟨1, 5, 6⟩⟩,
        ⟨.int, some (.int 2), ⟨1, 6, 7⟩⟩, ⟨.rparen, none, ⟨1, 7, 8⟩⟩], ⟨1, 8, 8⟩⟩
    (∀ t ∈ s.tokens, t.IsComplete) ∧ s.readStatement.1 = .ok (.call (.var "f") [.int 1]) ∧
      (s.afterReadings 1).readStatement.1 = .ok (.paren (.int 2)) ∧
      ∃ pieces : ℕ → List Token, (s.afterReadings 0).Consumes (pieces 0) ∧
        (s.afterReadings 1).Consumes (pieces 1) ∧
        s.tokens = pieces 0 ++ pieces 1 ++ (s.afterReadings 2).tokens := by
  intro s
  have hcomplete : ∀ t ∈ s.tokens, t.IsComplete := by
    simp [s, Token.IsComplete, Token.name?, Token.int?]
  have hfirst : s.readStatement = (.ok (.call (.var "f") [.int 1]), s.drop 4) := by cbv
  have hrest : s.afterReadings 1 = s.drop 4 := congrArg Prod.snd hfirst
  have hsecond : (s.drop 4).readStatement.1 = .ok (.paren (.int 2)) := by cbv
  obtain ⟨pieces, hpieces⟩ := readings_resume s hcomplete
  refine ⟨hcomplete, congrArg Prod.fst hfirst, hrest ▸ hsecond, pieces, (hpieces 0).1,
    (hpieces 1).1, ?_⟩
  have htokens := (hpieces 2).2.1
  rwa [List.range_succ, List.range_succ, List.range_zero, List.flatMap_append, List.nil_append,
    List.flatMap_singleton, List.flatMap_singleton] at htokens

end TokenStream

end ArrowCalc
