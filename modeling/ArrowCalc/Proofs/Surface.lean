import ArrowCalc.Proofs.Grammar.Translation
import ArrowCalc.Proofs.Marking
import ArrowCalc.Proofs.Parser.Acceptance

/-!
# The language of the sources

A source is accepted exactly when its tokens are a program of the plain grammar, in which nothing is
marked. The marks are found by counting parentheses, before anything is known of the phrases. In a
program they fall on the function literals and on nothing else, so inserting them is a translation
from the plain dialect to the marked one, and leaving them out is one in the other direction.

## Main definitions

* `Surface.markIn` — the marked form of the tokens in front of others

## Main results

* `Surface.closes_append` — matching parentheses do not disturb the search for a partner
* `Surface.translates_mark` — inserting the marks is a translation
* `Surface.program_marked_iff` — the marked tokens are a program exactly if the plain ones are
* `Expr.parse_recognizes` — the sources that are accepted, and their trees
-/

namespace ArrowCalc

open Grammar Marking ArrowCalc.Parser

namespace Surface

variable (eof : Span)

/-! ### The search for a partner -/

/-- The parenthesis that brings `depth` open ones down to none, among the tokens `ts`, is followed
by an arrow. -/
def Closes (depth : ℤ) (ts : List Token) : Prop :=
  ClosesBeforeArrow depth (TokenStream.get ⟨ts, eof⟩)

theorem closes_cons {depth : ℤ} {t : Token} (hdepth : 0 < depth) (ht : t.kind ≠ .eof)
    (hnext : 0 < depth + t.kind.nesting) (ts : List Token) :
    Closes eof depth (t :: ts) ↔ Closes eof (depth + t.kind.nesting) ts := by
  rw [Closes, closesBeforeArrow_iff hdepth]
  constructor
  · rintro ⟨-, ⟨hzero, -⟩ | ⟨-, h⟩⟩
    · exact absurd hzero hnext.ne'
    · exact h
  · exact fun h => ⟨ht, .inr ⟨hnext, h⟩⟩

/-- The last open parenthesis is closed in front of an arrow if an arrow comes next. -/
theorem closes_close {close : Token} (hclose : close.kind = .rparen) (ts : List Token) :
    Closes eof 1 (close :: ts) ↔ ts.head?.map Token.kind = some .arrow := by
  have hnesting : (1 : ℤ) + close.kind.nesting = 0 := by rw [hclose]; rfl
  have hget : (TokenStream.get ⟨close :: ts, eof⟩ 1).kind = .arrow ↔
      ts.head?.map Token.kind = some .arrow := by
    cases ts with
    | nil => exact ⟨nofun, nofun⟩
    | cons t ts => exact (Option.some_inj (a := t.kind)).symm
  rw [Closes, closesBeforeArrow_iff Int.zero_lt_one, ← hget]
  constructor
  · rintro ⟨-, ⟨-, harrow⟩ | ⟨hpos, -⟩⟩
    · exact harrow
    · exact absurd hnesting hpos.ne'
  · intro harrow
    refine ⟨?_, .inl ⟨hnesting, harrow⟩⟩
    show close.kind ≠ .eof
    rw [hclose]
    decide

/-- Matching parentheses do not disturb the search. -/
theorem closes_append {depth : ℤ} {ts : List Token} (h : Balanced ts) (hdepth : 0 < depth)
    (rest : List Token) : Closes eof depth (ts ++ rest) ↔ Closes eof depth rest := by
  induction h generalizing depth rest with
  | nil => exact Iff.rfl
  | @token t hopen hclose heof =>
    have hnesting := TokenKind.nesting_eq_zero hopen hclose
    rw [List.singleton_append, closes_cons eof hdepth heof (by rwa [hnesting, add_zero]), hnesting,
      add_zero]
  | append _ _ ihts ihus => rw [List.append_assoc, ihts hdepth, ihus hdepth]
  | @nested opening close ts hopen _ hclose ih =>
    have hup : opening.kind.nesting = 1 := by rw [hopen]; rfl
    have hdown : close.kind.nesting = -1 := by rw [hclose]; rfl
    -- inside, one more is open, so the search cannot end before the partner
    have hinside : 0 < depth + opening.kind.nesting := by omega
    rw [List.cons_append, closes_cons eof hdepth (by rw [hopen]; decide) hinside,
      List.append_assoc, List.singleton_append, ih hinside,
      closes_cons eof hinside (by rw [hclose]; decide) (by omega), hup, hdown,
      Int.add_neg_cancel_right]

/-! ### Inserting the marks -/

/-- The marked form of the tokens `ts` in front of `rest`. -/
noncomputable def markIn (ts rest : List Token) : List Token :=
  insertion (TokenStream.get ⟨ts ++ rest, eof⟩) ts.length

theorem opensFunction_iff (t : Token) (ts : List Token) :
    OpensFunction (TokenStream.get ⟨t :: ts, eof⟩) 0 ↔ t.kind = .lparen ∧ Closes eof 1 ts := by
  have hrest : (fun n => TokenStream.get ⟨t :: ts, eof⟩ (0 + 1 + n)) =
      TokenStream.get ⟨ts, eof⟩ := by
    funext n
    rw [Nat.zero_add, Nat.add_comm]
    rfl
  rw [OpensFunction, hrest]
  exact Iff.rfl

theorem markIn_append (ts us rest : List Token) :
    markIn eof (ts ++ us) rest = markIn eof ts (us ++ rest) ++ markIn eof us rest := by
  have hrest : (fun i => TokenStream.get ⟨ts ++ (us ++ rest), eof⟩ (ts.length + i)) =
      TokenStream.get ⟨us ++ rest, eof⟩ := by
    funext i
    rw [← TokenStream.get_drop, TokenStream.drop, List.drop_left]
  rw [markIn, List.length_append, insertion_add, List.append_assoc, hrest]
  rfl

theorem markIn_of_opens {t : Token} {rest : List Token} (hopen : t.kind = .lparen)
    (h : Closes eof 1 rest) : markIn eof [t] rest = [t.markFor, t] := by
  rw [markIn, List.length_singleton, List.singleton_append, insertion_succ,
    withMark_of_opens ((opensFunction_iff eof t rest).mpr ⟨hopen, h⟩)]
  rfl

theorem markIn_of_not_opens {t : Token} {rest : List Token}
    (h : ¬ (t.kind = .lparen ∧ Closes eof 1 rest)) : markIn eof [t] rest = [t] := by
  rw [markIn, List.length_singleton, List.singleton_append, insertion_succ,
    withMark_of_not_opens (mt (opensFunction_iff eof t rest).mp h)]
  rfl

/-- Inserting the marks leads from the plain dialect to the marked one. -/
theorem translates_mark : Translates .plain .marked (markIn eof) where
  append := markIn_append eof
  token _ hopen _ := markIn_of_not_opens eof fun h => hopen h.1
  paren _ hts hclose hrest := by
    refine markIn_of_not_opens eof fun h => hrest ?_
    rw [closes_append eof hts Int.zero_lt_one, closes_close eof hclose] at h
    exact h.2
  opening {opening ts close arrow} hopen hts hclose harrow rest := by
    obtain ⟨l, rfl, hl⟩ := Dialect.opening_plain hopen
    have hcloses : Closes eof 1 (ts ++ close :: arrow :: rest) := by
      rw [closes_append eof hts Int.zero_lt_one, closes_close eof hclose, List.head?_cons,
        Option.map_some, harrow]
    rw [markIn_of_opens eof hl hcloses, List.map_cons, List.map_singleton, hl]
    rfl

/-- Leaving out the inserted marks gives the tokens back. -/
theorem eraseMarks_markIn {ts : List Token} (h : ∀ t ∈ ts, t.kind ≠ .func) (rest : List Token) :
    eraseMarks (markIn eof ts rest) = ts := by
  induction ts with
  | nil => rfl
  | cons t ts ih =>
    obtain ⟨ht, hts⟩ := List.forall_mem_cons.mp h
    have hone : eraseMarks (markIn eof [t] (ts ++ rest)) = [t] := by
      by_cases hopens : t.kind = .lparen ∧ Closes eof 1 (ts ++ rest)
      · have hmark : t.markFor.kind = .func := rfl
        rw [markIn_of_opens eof hopens.1 hopens.2, eraseMarks,
          List.filter_cons_of_neg (by rw [hmark]; decide)]
        exact eraseMarks_singleton ht
      · rw [markIn_of_not_opens eof hopens, eraseMarks_singleton ht]
    have hcons := congrArg eraseMarks (markIn_append eof [t] ts rest)
    rwa [translates_erase.append _ _ [], hone, ih hts] at hcons

/-- The marked form of a list is a program exactly if the list is, with the same statements. -/
theorem program_marked_iff {ts : List Token} (h : ∀ t ∈ ts, t.kind ≠ .func) (es : List Expr) :
    Program .marked (markIn eof ts []) es ↔ Program .plain ts es := by
  constructor
  · intro hprogram
    have hplain := translates_erase.program hprogram (show NoArrow [] from nofun)
    rwa [eraseMarks_markIn eof h] at hplain
  · exact fun hprogram => (translates_mark eof).program hprogram nofun

end Surface

/-! ### The tokens of a marked stream -/

open Surface

theorem Marking.peek_take_insertion {f : ℕ → Token} (h : (f 0).kind = .eof) (n k : ℕ) :
    peek ((insertion f n).take k) = .eof := by
  cases n with
  | zero => rw [insertion, List.range_zero, List.flatMap_nil, List.take_nil]; rfl
  | succ n =>
    have hopens : ¬ OpensFunction f 0 := fun hopen => by
      rw [hopen.1] at h
      cases h
    rw [insertion_succ, withMark_of_not_opens hopens, List.singleton_append]
    cases k with
    | zero => rfl
    | succ k => exact h

namespace TokenStream

/-- What a marker gives out is the marked form of the listed tokens, and then the end of the
input. -/
theorem take_ofStream (s : TokenStream) : ∃ rest, peek rest = .eof ∧
    (Marker.ofStream s).take (2 * s.tokens.length) = insertion s.get s.tokens.length ++ rest := by
  let n := s.tokens.length
  have hend : (s.get (n + 0)).kind = .eof := by
    rw [← get_drop, drop, List.drop_length]
    rfl
  have hall := Marker.take_insertion ⟨[], s⟩ (n + n)
  -- run past the listed tokens: each of the ends behind them gives out one token at least
  have hlong : 2 * n ≤ (insertion s.get (n + n)).length := by
    have := le_length_insertion s.get (n + n)
    omega
  rw [Lookahead.get_ofStream] at hall
  refine ⟨(insertion (fun i => s.get (n + i)) n).take (2 * n - (insertion s.get n).length),
    peek_take_insertion hend n _, ?_⟩
  rw [← Marker.take_take hlong, Marker.ofStream, hall, insertion_add, List.take_append,
    List.take_of_length_le (length_insertion_le s.get n)]

/-- A marked stream lists the marked form of the tokens that were listed, if these have no end of
the input among them. -/
theorem beforeEof_marked {s : TokenStream} (h : ∀ t ∈ s.tokens, t.kind ≠ .eof) :
    s.marked.beforeEof = markIn s.eof s.tokens [] := by
  have hmarked : ∀ t ∈ insertion s.get s.tokens.length, t.kind ≠ .eof := by
    intro t ht heof
    rcases mem_insertion ht with hfunc | ⟨i, hi, rfl⟩
    · rw [hfunc] at heof
      cases heof
    · rw [get, List.getD_eq_getElem?_getD, List.getElem?_eq_getElem hi] at heof
      exact h _ (List.getElem_mem hi) heof
  obtain ⟨rest, hrest, hrun⟩ := take_ofStream s
  have hlisted := takeWhile_append_of_peek hmarked (show peek [] = .eof from rfl)
  rw [List.append_nil] at hlisted
  rw [markIn, List.append_nil, beforeEof, marked, hrun, takeWhile_append_of_peek hmarked hrest,
    hlisted]

end TokenStream

/-! ### Sources -/

/-- The marked tokens of a source are a program exactly if its tokens are. -/
theorem Surface.program_source_iff (source : String) (es : List Expr) :
    Program .marked (TokenStream.ofSource source).marked.beforeEof es ↔
      Program .plain (TokenStream.ofSource source).tokens es := by
  have hspelled : ∀ t ∈ (TokenStream.ofSource source).tokens, t.kind.IsSpelled :=
    fun t ht => TokenStream.isSpelled_of_mem_ofSource ht
  rw [TokenStream.beforeEof_marked fun t ht => (hspelled t ht).2,
    program_marked_iff _ fun t ht => (hspelled t ht).1]

/-- **The parser decides the plain grammar.** The tokens of a source have neither a mark nor an end
of the input among them. The tree of the source is a block exactly when they are a program, the
statements of the block are those of the program, of which there is one list only, and otherwise the
whole tree is malformed. -/
theorem Expr.parse_recognizes (source : String) :
    (∀ t ∈ (TokenStream.ofSource source).tokens, t.kind ≠ .func ∧ t.kind ≠ .eof) ∧
      (∀ es, Expr.parse source = .block es ↔
        Program .plain (TokenStream.ofSource source).tokens es) ∧
      (∀ es es', Program .plain (TokenStream.ofSource source).tokens es →
        Program .plain (TokenStream.ofSource source).tokens es' → es = es') ∧
      ((∃ message, Expr.parse source = .malformed message) ↔
        ∀ es, ¬ Program .plain (TokenStream.ofSource source).tokens es) := by
  have hiff := program_source_iff source
  refine ⟨fun t ht => TokenStream.isSpelled_of_mem_ofSource ht, fun es => ?_,
    fun es es' h h' => ?_, ?_⟩
  · rw [← hiff]
    exact TokenStream.readProgram_eq_block_iff _ es
  · exact ((hiff es).mpr h).unique ((hiff es').mpr h')
  · simp only [← hiff]
    exact TokenStream.readProgram_malformed_iff _

end ArrowCalc
