import ArrowCalc.Proofs.Lexeme.Delimiters

/-!
# Where tokens stand

A token knows its line and its columns, but not the characters in front of it. An occurrence keeps
these as well. Reading a source with occurrences is the same as reading it without, and it lets the
cursor be explained by characters: behind every token the line is the number of line breaks so far,
and the depth is that of the parentheses so far, whatever lexemes they came in.

The line breaks that are tokens can therefore be found without cutting the text at all. They are the
ones with as many opening as closing parentheses in front of them. A closing parenthesis too many
takes the depth below zero, and there the line breaks are left out just as inside parentheses.

## Main definitions

* `Occurrence`, `occurrences` — tokens with the text in front of them
* `balancedBreaks` — the indices of the line breaks behind balanced text

## Main results

* `exists_split_of_mem_occurrences` — an occurrence is a place between two lexemes
* `Lexeme.Lexes.lineBreaks_eq` — the line breaks of a list of lexemes
* `TokenStream.significant_lineBreaks` — line breaks and depth, by characters alone
-/

namespace ArrowCalc

open Lexeme

/-! ### Occurrences -/

/-- A token with the text in front of it and its own text. -/
structure Occurrence where
  before : List Char
  text : List Char
  reading : Reading

namespace Occurrence

/-- The text that has been read when the token has. -/
def through (o : Occurrence) : List Char := o.before ++ o.text

/-- The token is a line break. -/
def isLineBreak (o : Occurrence) : Bool := o.reading.token.kind = .newline

end Occurrence

/-- The tokens of a list of lexemes that stands behind a text, read from a place on. -/
def occurrences (before : List Char) (cur : Cursor) : List Lexeme → List Occurrence
  | [] => []
  | x :: xs =>
    match cur.token? x with
    | some token =>
      ⟨before, x.text, ⟨token, cur.advance x⟩⟩ ::
        occurrences (before ++ x.text) (cur.advance x) xs
    | none => occurrences (before ++ x.text) (cur.advance x) xs

/-- The occurrences of the tokens of a source. -/
def TokenStream.occurrences (source : String) : List Occurrence :=
  ArrowCalc.occurrences [] .start (cut source.toList)

theorem occurrences_cons (before : List Char) (cur : Cursor) (x : Lexeme) (xs : List Lexeme) :
    occurrences before cur (x :: xs) =
      ((cur.token? x).map fun t => ⟨before, x.text, ⟨t, cur.advance x⟩⟩).toList ++
        occurrences (before ++ x.text) (cur.advance x) xs := by
  rw [occurrences]
  cases cur.token? x with
  | none => rfl
  | some t => rfl

/-- The text in front of the tokens changes nothing about them. -/
theorem map_reading_occurrences (before : List Char) (cur : Cursor) (xs : List Lexeme) :
    (occurrences before cur xs).map Occurrence.reading = readings cur xs := by
  induction xs generalizing before cur with
  | nil => rfl
  | cons x xs ih =>
    rw [occurrences, readings]
    cases cur.token? x with
    | none => exact ih _ _
    | some t => exact congrArg _ (ih _ _)

/-- An occurrence is a lexeme, with the lexemes in front of it. -/
theorem exists_split_of_mem_occurrences {before : List Char} {cur : Cursor} {xs : List Lexeme}
    {o : Occurrence} (h : o ∈ occurrences before cur xs) :
    ∃ ys x zs, xs = ys ++ x :: zs ∧ o.before = before ++ ys.flatMap Lexeme.text ∧
      o.text = x.text ∧ (cur.advanceAll ys).token? x = some o.reading.token ∧
      o.reading.after = cur.advanceAll (ys ++ [x]) := by
  induction xs generalizing before cur with
  | nil => cases h
  | cons x xs ih =>
    rw [occurrences_cons, List.mem_append] at h
    rcases h with h | h
    · obtain ⟨t, htoken, rfl⟩ := Option.map_eq_some_iff.mp (Option.mem_toList.mp h)
      exact ⟨[], x, xs, rfl, (List.append_nil before).symm, rfl, htoken, rfl⟩
    · obtain ⟨ys, y, zs, rfl, hbefore, htext, htoken, hafter⟩ := ih h
      refine ⟨x :: ys, y, zs, rfl, ?_, htext, htoken, hafter⟩
      rw [hbefore, List.append_assoc, List.flatMap_cons]

/-- Behind an occurrence the cursor stands where the text read so far takes it. -/
theorem TokenStream.spec_of_mem_occurrences {source : String} {o : Occurrence}
    (h : o ∈ occurrences source) :
    o.through <+: source.toList ∧ o.reading.after = Cursor.start.advanceAll (cut o.through) ∧
      ∃ x, IsFirst (source.toList.drop o.before.length) x ∧ x.text = o.text ∧
        (Cursor.start.advanceAll (cut o.before)).token? x = some o.reading.token := by
  obtain ⟨ys, x, zs, hxs, hbefore, htext, htoken, hafter⟩ := exists_split_of_mem_occurrences h
  rw [List.nil_append] at hbefore
  have hlexes : Lexes source.toList (ys ++ x :: zs) := lexes_iff.mpr hxs.symm
  have hsource : source.toList = o.before ++ (x :: zs).flatMap Lexeme.text := by
    rw [hlexes.text_eq, List.flatMap_append, hbefore]
  have hthrough : (ys ++ [x]).flatMap Lexeme.text = o.through := by
    rw [List.flatMap_append, Occurrence.through, hbefore, htext, List.flatMap_singleton]
  have hys : ys = cut o.before := by
    rw [hbefore]
    exact lexes_iff.mp hlexes.left
  have hthroughLexes : Lexes source.toList ((ys ++ [x]) ++ zs) := by
    rwa [List.append_assoc, List.singleton_append]
  refine ⟨?_, ?_, x, ?_, htext.symm, hys ▸ htoken⟩
  · rw [hthroughLexes.text_eq, List.flatMap_append, hthrough]
    exact List.prefix_append _ _
  · rw [hafter, ← hthrough, ← lexes_iff.mp hthroughLexes.left]
  · have hrest := hlexes.right
    rw [hsource, List.drop_left]
    generalize (x :: zs).flatMap Lexeme.text = rest at hrest ⊢
    cases hrest with
    | cons hfirst _ => exact hfirst

/-! ### Line breaks behind balanced text -/

/-- The character at an index is a line break, and the text in front of it opens as many parentheses
as it closes. -/
def isBalancedBreak (cs : List Char) (i : ℕ) : Bool :=
  cs[i]? = some '\n' ∧ (cs.take i).count '(' = (cs.take i).count ')'

/-- The indices of the line breaks behind balanced text. -/
def balancedBreaks (cs : List Char) : List ℕ := (List.range cs.length).filter (isBalancedBreak cs)

theorem isBalancedBreak_append_lineBreak (before rest : List Char) :
    isBalancedBreak (before ++ '\n' :: rest) before.length ↔
      before.count '(' = before.count ')' := by
  rw [isBalancedBreak, decide_eq_true_eq, List.getElem?_append_right (Nat.le_refl _), Nat.sub_self,
    List.take_left]
  exact and_iff_right rfl

/-- A piece without a line break has no index of one. -/
theorem filter_isBalancedBreak_of_notMem {before w rest : List Char} (hw : '\n' ∉ w) :
    (List.range' before.length w.length).filter (isBalancedBreak (before ++ (w ++ rest))) = [] := by
  refine List.filter_eq_nil_iff.mpr fun i hi hbreak => hw ?_
  obtain ⟨hle, hlt⟩ := List.mem_range'_1.mp hi
  have hat := (of_decide_eq_true hbreak).1
  rw [List.getElem?_append_right hle, List.getElem?_append_left (by omega)] at hat
  exact List.mem_of_getElem? hat

namespace Lexeme

theorem IsFirst.lineBreak_notMem {text : List Char} {x : Lexeme} (h : IsFirst text x)
    (hcls : x.cls ≠ .token .newline) : '\n' ∉ x.text := by
  intro hmem
  rcases h.cls_of_mem hmem (by decide) with ⟨hc, -⟩ | ⟨-, hbreak⟩ | ⟨hc, -⟩ | ⟨hc, -⟩
  · exact absurd hc (by decide)
  · exact hcls hbreak
  · exact absurd hc (by decide)
  · exact absurd hc (by decide)

theorem IsFirst.kind_ne_newline {text : List Char} {x : Lexeme} (h : IsFirst text x)
    (hblank : x.cls ≠ .blank) (hcls : x.cls ≠ .token .newline) : x.content.1 ≠ .newline := by
  intro hkind
  have hdenotes := denotes_content h.isGenuine hblank
  rw [hkind] at hdenotes
  exact hcls hdenotes.cls_of_newline

/-- One lexeme is a token and a line break only where the text has a balanced line break. -/
theorem IsFirst.lineBreaks_eq {before rest : List Char} {cur : Cursor} {x : Lexeme}
    (h : IsFirst (x.text ++ rest) x)
    (hdepth : cur.depth = (before.count '(' : ℤ) - before.count ')') (after : Cursor) :
    ((((cur.token? x).map fun t => (⟨before, x.text, ⟨t, after⟩⟩ : Occurrence)).toList).filter
        Occurrence.isLineBreak).map (fun o => o.before.length) =
      (List.range' before.length x.text.length).filter
        (isBalancedBreak (before ++ (x.text ++ rest))) := by
  by_cases hbreak : x.cls = .token .newline
  · have hiff := isBalancedBreak_append_lineBreak before rest
    have htoken : cur.token? x =
        if cur.depth = 0 then some ⟨.newline, none, cur.span⟩ else none := by
      rw [Cursor.token?, hbreak]
      rfl
    have hrange : List.range' before.length ['\n'].length = [before.length] := rfl
    rw [h.text_of_cls.1 hbreak, htoken, hrange, List.singleton_append]
    by_cases hzero : cur.depth = 0
    · rw [if_pos hzero, List.filter_cons_of_pos (hiff.mpr (by omega))]
      rfl
    · rw [if_neg hzero, List.filter_cons_of_neg (mt hiff.mp (by omega))]
      rfl
  -- any other lexeme has no line break in its text, and none comes of it
  · rw [filter_isBalancedBreak_of_notMem (h.lineBreak_notMem hbreak)]
    cases htoken : cur.token? x with
    | none => rfl
    | some t =>
      rcases Cursor.token?_eq_some htoken with ⟨hcls, -⟩ | ⟨hblank, -, heq⟩
      · exact absurd hcls hbreak
      · have hkind : ¬ Occurrence.isLineBreak ⟨before, x.text, ⟨t, after⟩⟩ := by
          rw [Occurrence.isLineBreak, decide_eq_true_eq, heq]
          exact h.kind_ne_newline hblank hbreak
        exact congrArg _ (List.filter_cons_of_neg hkind)

/-- The line breaks among the tokens of a text are the balanced ones. -/
theorem Lexes.lineBreaks_eq {text : List Char} {xs : List Lexeme} (h : Lexes text xs)
    {before : List Char} {cur : Cursor}
    (hdepth : cur.depth = (before.count '(' : ℤ) - before.count ')') :
    ((occurrences before cur xs).filter Occurrence.isLineBreak).map (fun o => o.before.length) =
      (List.range' before.length text.length).filter (isBalancedBreak (before ++ text)) := by
  induction h generalizing before cur with
  | nil => rfl
  | @cons x rest xs hfirst _ ih =>
    have hafter : (cur.advance x).depth =
        ((before ++ x.text).count '(' : ℤ) - (before ++ x.text).count ')' := by
      rw [Cursor.depth_advance, hdepth, hfirst.nesting_eq, List.count_append, List.count_append]
      omega
    have ih := ih hafter
    rw [List.append_assoc, List.length_append] at ih
    -- the indices of the text are those of the first lexeme and then those of the rest
    rw [occurrences_cons, List.filter_append, List.map_append, ih, hfirst.lineBreaks_eq hdepth,
      ← List.filter_append, List.range'_append_1, List.length_append]

end Lexeme

/-! ### Sources -/

namespace TokenStream

/-- No place of a source is deeper than the source has parentheses. -/
theorem natAbs_depth_le {source : String} {u : List Char} (h : u <+: source.toList) :
    (Cursor.start.advanceAll (cut u)).depth.natAbs ≤
      source.toList.count '(' + source.toList.count ')' := by
  have hopen := h.sublist.count_le '('
  have hclose := h.sublist.count_le ')'
  rw [Cursor.depth_start_advanceAll]
  omega

/-- **Line breaks by characters.** In a source of fewer than `2 ^ 31` parentheses the line breaks
among the tokens are those at the indices with equally many opening and closing parentheses in front
of them, in this order. Behind every token the depth is the number of parentheses opened less those
closed in the text up to there, at the end it is that of the whole source, and a number of 32 bits
with a sign holds it at all times. -/
theorem significant_lineBreaks (source : String)
    (hbound : source.toList.count '(' + source.toList.count ')' < 2 ^ 31) :
    (occurrences source).map Occurrence.reading = trace source ∧
      ((occurrences source).filter Occurrence.isLineBreak).map (fun o => o.before.length) =
        balancedBreaks source.toList ∧
      (∀ o ∈ occurrences source, o.through <+: source.toList ∧
        (o.isLineBreak → o.text = ['\n']) ∧
        o.reading.after.depth = (o.through.count '(' : ℤ) - o.through.count ')' ∧
        o.reading.after.depth.natAbs < 2 ^ 31) ∧
      (endOf source).depth = (source.toList.count '(' : ℤ) - source.toList.count ')' ∧
      (endOf source).depth.natAbs < 2 ^ 31 := by
  have hlexes : Lexes source.toList (cut source.toList) := lexes_iff.mpr rfl
  refine ⟨map_reading_occurrences _ _ _, ?_, ?_, Cursor.depth_start_advanceAll _, ?_⟩
  · rw [balancedBreaks, List.range_eq_range']
    exact hlexes.lineBreaks_eq rfl
  · intro o ho
    obtain ⟨hthrough, hafter, x, hfirst, htext, htoken⟩ := spec_of_mem_occurrences ho
    refine ⟨hthrough, ?_, ?_, ?_⟩
    · intro hkind
      rw [← htext]
      rcases Cursor.token?_eq_some htoken with ⟨hcls, -⟩ | ⟨hblank, hcls, heq⟩
      · exact hfirst.text_of_cls.1 hcls
      · have hkind := of_decide_eq_true hkind
        rw [heq] at hkind
        exact absurd hkind (hfirst.kind_ne_newline hblank hcls)
    · rw [hafter, Cursor.depth_start_advanceAll]
    · rw [hafter]
      exact (natAbs_depth_le hthrough).trans_lt hbound
  · exact (natAbs_depth_le (List.prefix_refl _)).trans_lt hbound

/-- Of the four line breaks here the first stands behind balanced text, the second behind a closing
parenthesis too many, the third inside of parentheses, and the last behind balanced text again. -/
theorem significant_lineBreaks_stray_rparen :
    let source := "\n)\n((\n)\n"
    source.toList.count '(' + source.toList.count ')' < 2 ^ 31 ∧
      balancedBreaks source.toList = [0, 7] ∧
      ((occurrences source).filter Occurrence.isLineBreak).map (fun o => o.before.length) =
        [0, 7] := by
  intro source
  have hbound : source.toList.count '(' + source.toList.count ')' < 2 ^ 31 := by decide
  have hbreaks : balancedBreaks source.toList = [0, 7] := by decide
  exact ⟨hbound, hbreaks, (significant_lineBreaks source hbound).2.1.trans hbreaks⟩

end TokenStream

end ArrowCalc
