import ArrowCalc.Proofs.Spelling
import ArrowCalc.Token.Marking
import Mathlib.Algebra.Order.Group.Int

/-!
# The stream that a marker gives out

A marker is a state machine: a parenthesis that waits for its turn behind its mark, a queue of
tokens that were read ahead, and a stream. What it gives out is described here without any of the
three, as an insertion into the infinite sequence of tokens that the stream denotes.

The invariant is `Lookahead.get`, the sequence of tokens that the queue and the stream denote
together. Reading ahead moves tokens from the stream to the queue and leaves the sequence as it is,
whatever the queue already held. The end of the input may be in the queue as well.

## Main definitions

* `Marking.OpensFunction` — the parentheses that deserve a mark, by counting
* `Marking.withMark` — what one token of the stream becomes

## Main results

* `Lookahead.get_scan`, `Lookahead.scan_iff` — looking ahead loses nothing and finds the partner
* `Marker.take_insertion` — every beginning of what a marker gives out
* `Marking.take_ofSource` — the same behind any number of tokens of a source
-/

namespace ArrowCalc

theorem TokenKind.nesting_eq_zero {kind : TokenKind} (hopen : kind ≠ .lparen)
    (hclose : kind ≠ .rparen) : kind.nesting = 0 := by
  cases kind <;> first | rfl | exact absurd rfl hopen | exact absurd rfl hclose

theorem TokenKind.nesting_nonneg {kind : TokenKind} (h : kind ≠ .rparen) : 0 ≤ kind.nesting := by
  cases kind <;> first | exact absurd rfl h | decide

namespace Lookahead

/-! ### The sequence that a lookahead denotes -/

/-- The `n`-th token that will be taken. -/
def get : Lookahead → ℕ → Token
  | b, 0 => b.pop.1
  | b, n + 1 => get b.pop.2 n

theorem get_pop (b : Lookahead) (n : ℕ) : b.pop.2.get n = b.get (n + 1) := rfl

/-- A token that is put back is the next one to be taken. -/
theorem get_push_congr (t : Token) {b c : Lookahead} (h : b.get = c.get) :
    (b.push t).get = (c.push t).get := by
  funext n
  cases n with
  | zero => rfl
  | succ n => exact congrFun h n

/-- Putting back what was taken undoes the taking. -/
theorem get_push_pop (b : Lookahead) : (b.pop.2.push b.pop.1).get = b.get := by
  funext n
  cases n <;> rfl

/-- An empty queue in front of a stream denotes the stream. -/
theorem get_ofStream (s : TokenStream) : (⟨[], s⟩ : Lookahead).get = s.get := by
  funext n
  obtain ⟨ts, eof⟩ := s
  induction ts generalizing n with
  | nil =>
    induction n with
    | zero => rfl
    | succ n ih => exact ih
  | cons t ts ih =>
    cases n with
    | zero => rfl
    | succ n => exact ih n

/-- Looking ahead leaves the sequence as it is. -/
theorem get_scan (depth : ℤ) (b : Lookahead) : (b.scan depth).2.get = b.get := by
  fun_induction scan depth b with
  | case1 depth b t rest hend => exact get_push_pop b
  | case2 depth b t rest hend depth' hclose u =>
    calc ((rest.pop.2.push u).push t).get
        = (rest.push t).get := get_push_congr t (get_push_pop rest)
      _ = b.get := get_push_pop b
  | case3 depth b t rest hend depth' hopen found rest' hscan ih =>
    rw [hscan] at ih
    exact (get_push_congr t ih).trans (get_push_pop b)

end Lookahead

namespace Marking

/-! ### Parentheses that open a function literal -/

/-- The number of open parentheses behind the first `n` tokens of `f`, if `depth` are open in front
of them. -/
def openAfter (depth : ℤ) (f : ℕ → Token) : ℕ → ℤ
  | 0 => depth
  | n + 1 => openAfter depth f n + (f n).kind.nesting

/-- The token with which the number of open parentheses first comes down from `depth` to zero
stands before the end of the input and right in front of an arrow. -/
def ClosesBeforeArrow (depth : ℤ) (f : ℕ → Token) : Prop :=
  ∃ j, (∀ l ≤ j, (f l).kind ≠ .eof ∧ 0 < openAfter depth f l) ∧ openAfter depth f (j + 1) = 0 ∧
    (f (j + 1)).kind = .arrow

/-- The `i`-th token of `f` is a parenthesis, and its partner is followed by an arrow. -/
def OpensFunction (f : ℕ → Token) (i : ℕ) : Prop :=
  (f i).kind = .lparen ∧ ClosesBeforeArrow 1 fun n => f (i + 1 + n)

open Classical in
/-- What the `i`-th token of `f` becomes in the marked sequence. -/
noncomputable def withMark (f : ℕ → Token) (i : ℕ) : List Token :=
  if OpensFunction f i then [(f i).markFor, f i] else [f i]

theorem openAfter_succ (depth : ℤ) (f : ℕ → Token) (n : ℕ) :
    openAfter depth f (n + 1) =
      openAfter (depth + (f 0).kind.nesting) (fun i => f (i + 1)) n := by
  induction n with
  | zero => rfl
  | succ n ih => rw [openAfter, ih]; rfl

/-- One step of the search for the partner. -/
theorem closesBeforeArrow_iff {depth : ℤ} (hd : 0 < depth) (f : ℕ → Token) :
    ClosesBeforeArrow depth f ↔ (f 0).kind ≠ .eof ∧
      (depth + (f 0).kind.nesting = 0 ∧ (f 1).kind = .arrow ∨
        0 < depth + (f 0).kind.nesting ∧
          ClosesBeforeArrow (depth + (f 0).kind.nesting) fun i => f (i + 1)) := by
  constructor
  · rintro ⟨j, hin, hclose, harrow⟩
    refine ⟨(hin 0 (Nat.zero_le j)).1, ?_⟩
    cases j with
    | zero => exact .inl ⟨hclose, harrow⟩
    | succ j =>
      have hpos : 0 < depth + (f 0).kind.nesting := (hin 1 (by omega)).2
      refine .inr ⟨hpos, j, fun l hl => ?_, ?_, harrow⟩
      · rw [← openAfter_succ]
        exact hin (l + 1) (by omega)
      · rw [← openAfter_succ]
        exact hclose
  · rintro ⟨hend, ⟨hclose, harrow⟩ | ⟨hpos, j, hin, hclose, harrow⟩⟩
    · refine ⟨0, fun l hl => ?_, hclose, harrow⟩
      obtain rfl : l = 0 := by omega
      exact ⟨hend, hd⟩
    · refine ⟨j + 1, fun l hl => ?_, ?_, harrow⟩
      · cases l with
        | zero => exact ⟨hend, hd⟩
        | succ l =>
          rw [openAfter_succ]
          exact hin l (by omega)
      · rw [openAfter_succ]
        exact hclose

end Marking

open Marking

/-- Looking ahead answers whether the partner is followed by an arrow. -/
theorem Lookahead.scan_iff {depth : ℤ} (hd : 0 < depth) (b : Lookahead) :
    (b.scan depth).1 = true ↔ ClosesBeforeArrow depth b.get := by
  fun_induction scan depth b with
  | case1 depth b t rest hend =>
    rw [closesBeforeArrow_iff hd]
    exact ⟨fun h => absurd h Bool.false_ne_true, fun h => absurd hend h.1⟩
  | case2 depth b t rest hend depth' hclose u =>
    rw [closesBeforeArrow_iff hd, decide_eq_true_iff]
    constructor
    · exact fun harrow => ⟨hend, .inl ⟨hclose.2, harrow⟩⟩
    · rintro ⟨-, ⟨-, harrow⟩ | ⟨hpos, -⟩⟩
      · exact harrow
      · exact absurd hclose.2 hpos.ne'
  | case3 depth b t rest hend depth' hopen found rest' hscan ih =>
    -- only a closing parenthesis can bring the count down, and this one leaves some open
    have hpos : 0 < depth' := by
      by_cases hk : t.kind = .rparen
      · have hstep : depth' = depth - 1 := by simp only [depth', hk]; rfl
        have hne : depth' ≠ 0 := fun h0 => hopen ⟨hk, h0⟩
        omega
      · exact lt_of_lt_of_le hd (le_add_of_nonneg_right (TokenKind.nesting_nonneg hk))
    have ih := ih hpos
    rw [hscan] at ih
    rw [closesBeforeArrow_iff hd, ih]
    exact ⟨fun h => ⟨hend, .inr ⟨hpos, h⟩⟩, fun h => (h.2.resolve_left fun h0 => hpos.ne' h0.1).2⟩

/-! ### Runs of a marker -/

namespace Marking

theorem opensFunction_succ (f : ℕ → Token) (i : ℕ) :
    OpensFunction f (i + 1) ↔ OpensFunction (fun n => f (n + 1)) i := by
  have hshift : (fun n => f (i + 1 + 1 + n)) = fun n => f (i + 1 + n + 1) := by
    funext n
    rw [Nat.add_right_comm]
  rw [OpensFunction, OpensFunction, hshift]

theorem withMark_of_opens {f : ℕ → Token} {i : ℕ} (h : OpensFunction f i) :
    withMark f i = [(f i).markFor, f i] := if_pos h

theorem withMark_of_not_opens {f : ℕ → Token} {i : ℕ} (h : ¬ OpensFunction f i) :
    withMark f i = [f i] := if_neg h

theorem withMark_succ (f : ℕ → Token) (i : ℕ) :
    withMark f (i + 1) = withMark (fun n => f (n + 1)) i := by
  by_cases h : OpensFunction f (i + 1)
  · rw [withMark_of_opens h, withMark_of_opens ((opensFunction_succ f i).mp h)]
  · rw [withMark_of_not_opens h, withMark_of_not_opens (mt (opensFunction_succ f i).mpr h)]

/-- The marked form of the first `n` tokens of `f`. -/
noncomputable def insertion (f : ℕ → Token) (n : ℕ) : List Token :=
  (List.range n).flatMap (withMark f)

theorem insertion_succ (f : ℕ → Token) (n : ℕ) :
    insertion f (n + 1) = withMark f 0 ++ insertion (fun i => f (i + 1)) n := by
  have hrest : (List.range n).flatMap (fun i => withMark f (i + 1)) =
      insertion (fun i => f (i + 1)) n := by
    simp only [withMark_succ, insertion]
  rw [insertion, List.range_succ_eq_map, List.flatMap_cons, List.flatMap_map, ← hrest]

theorem insertion_add (f : ℕ → Token) (m n : ℕ) :
    insertion f (m + n) = insertion f m ++ insertion (fun i => f (m + i)) n := by
  induction m generalizing f with
  | zero => simp only [Nat.zero_add]; rfl
  | succ m ih =>
    have hshift : (fun i => f (m + i + 1)) = fun i => f (m + 1 + i) := by
      funext i
      rw [Nat.add_right_comm]
    rw [Nat.succ_add, insertion_succ, insertion_succ, ih, hshift, List.append_assoc]

end Marking

namespace Marker

theorem next_of_ne {b : Lookahead} (h : b.pop.1.kind ≠ .lparen) :
    next ⟨b, none⟩ = (b.pop.1, ⟨b.pop.2, none⟩) := if_neg h

theorem next_of_scan {b : Lookahead} (h : b.pop.1.kind = .lparen) {found : Bool} {c : Lookahead}
    (hscan : b.pop.2.scan 1 = (found, c)) :
    next ⟨b, none⟩ =
      if found then (b.pop.1.markFor, ⟨c, some b.pop.1⟩) else (b.pop.1, ⟨c, none⟩) := by
  simp only [next, h, hscan, if_true]
  cases found <;> rfl

/-- **One turn of a marker.** With no parenthesis pending it gives out the marked form of its first
token, and goes on in front of the second with none pending. -/
theorem take_withMark (b : Lookahead) :
    ∃ c : Lookahead, c.get = (fun n => b.get (n + 1)) ∧ ∀ n,
      take ((withMark b.get 0).length + n) ⟨b, none⟩ = withMark b.get 0 ++ take n ⟨c, none⟩ := by
  by_cases hparen : b.pop.1.kind = .lparen
  · rcases hscan : b.pop.2.scan 1 with ⟨found, c⟩
    have hafter : c.get = fun n => b.get (n + 1) := by
      have h := Lookahead.get_scan 1 b.pop.2
      rwa [hscan] at h
    -- the search begins behind the parenthesis, with this one open
    have hopens : OpensFunction b.get 0 ↔ found = true := by
      have hpartner : (fun n => b.get (0 + 1 + n)) = b.pop.2.get := by
        funext n
        rw [Nat.zero_add, Nat.add_comm, Lookahead.get_pop]
      have h := Lookahead.scan_iff Int.zero_lt_one b.pop.2
      rw [hscan] at h
      rw [OpensFunction, hpartner, h]
      exact and_iff_right hparen
    refine ⟨c, hafter, fun n => ?_⟩
    cases found with
    | true =>
      rw [withMark_of_opens (hopens.mpr rfl), List.length_cons, List.length_singleton,
        Nat.add_comm, take, next_of_scan hparen hscan]
      rfl
    | false =>
      rw [withMark_of_not_opens (mt hopens.mp Bool.false_ne_true), List.length_singleton,
        Nat.add_comm, take, next_of_scan hparen hscan]
      rfl
  · have hopens : ¬ OpensFunction b.get 0 := fun h => hparen h.1
    refine ⟨b.pop.2, rfl, fun n => ?_⟩
    rw [withMark_of_not_opens hopens, List.length_singleton, Nat.add_comm, take, next_of_ne hparen]
    rfl

/-- A shorter run is the beginning of a longer one. -/
theorem take_take {k n : ℕ} (h : k ≤ n) (m : Marker) : (m.take n).take k = m.take k := by
  induction k generalizing n m with
  | zero => rw [List.take_zero]; rfl
  | succ k ih =>
    obtain ⟨n, rfl⟩ := Nat.exists_eq_add_of_le' (Nat.zero_lt_of_lt h)
    rw [take, List.take_succ_cons, ih (Nat.le_of_succ_le_succ h)]
    rfl

/-- **Every run of a marker.** However many tokens of the stream have been used up, what was given
out is their marked form. -/
theorem take_insertion (b : Lookahead) (n : ℕ) :
    take (insertion b.get n).length ⟨b, none⟩ = insertion b.get n := by
  induction n generalizing b with
  | zero => rfl
  | succ n ih =>
    obtain ⟨c, hc, hturn⟩ := take_withMark b
    rw [insertion_succ, List.length_append, hturn, ← hc, ih c]

end Marker

/-! ### The marked stream of a source -/

namespace Marking

theorem length_withMark_pos (f : ℕ → Token) (i : ℕ) : 0 < (withMark f i).length := by
  rw [withMark]
  split <;> exact Nat.succ_pos _

/-- No position of the marked sequence is out of reach. -/
theorem le_length_insertion (f : ℕ → Token) (n : ℕ) : n ≤ (insertion f n).length := by
  induction n generalizing f with
  | zero => exact Nat.zero_le _
  | succ n ih =>
    rw [insertion_succ, List.length_append, Nat.add_comm]
    exact Nat.add_le_add (length_withMark_pos f 0) (ih _)

theorem length_insertion_le (f : ℕ → Token) (n : ℕ) :
    (insertion f n).length ≤ 2 * n := by
  induction n generalizing f with
  | zero => exact Nat.le_refl 0
  | succ n ih =>
    have hone : (withMark f 0).length ≤ 2 := by
      rw [withMark]
      split
      · exact Nat.le_refl 2
      · exact Nat.le_succ 1
    have hrest := ih fun i => f (i + 1)
    rw [insertion_succ, List.length_append]
    omega

/-- Only marks are added. -/
theorem mem_insertion {f : ℕ → Token} {n : ℕ} {t : Token} (h : t ∈ insertion f n) :
    t.kind = .func ∨ ∃ i < n, t = f i := by
  obtain ⟨i, hi, ht⟩ := List.mem_flatMap.mp h
  rw [withMark] at ht
  split at ht
  · rcases List.mem_cons.mp ht with rfl | ht
    · exact .inl rfl
    · exact .inr ⟨i, List.mem_range.mp hi, List.mem_singleton.mp ht⟩
  · exact .inr ⟨i, List.mem_range.mp hi, List.mem_singleton.mp ht⟩

/-- Without its marks, the marked sequence is the sequence itself. -/
theorem filter_insertion {f : ℕ → Token} (hf : ∀ i, (f i).kind ≠ .func) (n : ℕ) :
    (insertion f n).filter (·.kind ≠ .func) = (List.range n).map f := by
  have hone : ∀ i, (withMark f i).filter (·.kind ≠ .func) = [f i] := by
    intro i
    have hmark : (f i).markFor.kind = .func := rfl
    rw [withMark]
    split <;> simp [hmark, hf i]
  rw [insertion, List.filter_flatMap, List.map_eq_flatMap]
  simp only [hone]

end Marking

theorem TokenStream.kind_get_ne_func (source : String) (i : ℕ) :
    ((ofSource source).get i).kind ≠ .func := by
  rw [get, List.getD_eq_getElem?_getD]
  cases h : (ofSource source).tokens[i]? with
  | none =>
    intro hfunc
    cases hfunc
  | some t => exact (isSpelled_of_mem_ofSource (List.mem_of_getElem? h)).1

/-- **The marked stream.** Behind any `k` tokens of a source, what a marker gives out is the rest of
the infinite sequence of tokens with a mark in front of exactly the parentheses that open a function
literal; without the marks it is that rest, token by token. The beginnings `insertion f n` of the
marked sequence determine it, since they get longer with `n`. -/
theorem Marking.take_ofSource (source : String) (k n : ℕ) :
    n ≤ (insertion ((TokenStream.ofSource source).drop k).get n).length ∧
      (Marker.ofStream ((TokenStream.ofSource source).drop k)).take
          (insertion ((TokenStream.ofSource source).drop k).get n).length =
        insertion ((TokenStream.ofSource source).drop k).get n ∧
      (insertion ((TokenStream.ofSource source).drop k).get n).filter (·.kind ≠ .func) =
        (List.range n).map ((TokenStream.ofSource source).drop k).get := by
  let rest := (TokenStream.ofSource source).drop k
  have hfunc : ∀ i, (rest.get i).kind ≠ .func := by
    intro i
    rw [TokenStream.get_drop]
    exact TokenStream.kind_get_ne_func source (k + i)
  refine ⟨le_length_insertion _ n, ?_, filter_insertion hfunc n⟩
  have hrun := Marker.take_insertion ⟨[], rest⟩ n
  rwa [Lookahead.get_ofStream] at hrun

end ArrowCalc
