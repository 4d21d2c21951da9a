import ArrowCalc.Proofs.Lexeme.Denotation

/-!
# Texts cut in pieces

Blanks, line breaks and parentheses begin a lexeme wherever they stand: inside of a token there are
none. So a text may be cut in front of such a character first, and the pieces be cut into lexemes
one by one. What comes out is the same up to the blanks, since blanks on both sides of the place
make one lexeme or two.

What lexemes denote depends on the blanks between them in no way, and on the text in front of them
only through the number of parentheses, which can be counted by characters.

## Main definitions

* `Lexeme.delimiters` — the characters that are inside of no token
* `Lexeme.solid` — the lexemes that are not blank

## Main results

* `Lexeme.solid_cut_append` — a text is cut piece by piece
* `Lexeme.IsFirst.cls_of_mem` — a delimiter is a lexeme by itself, or part of a blank one
* `Lexeme.sum_nesting_cut` — the open parentheses of a text
* `contents_solid`, `contents_congr_depth` — what the tokens of lexemes depend on
-/

namespace ArrowCalc

open Computability Pattern

namespace Lexeme

/-! ### Delimiters

This is checked on the patterns of the tokens, one class after the other. Blanks are the exception:
a blank lexeme consists of delimiters, and goes on as long as there are more of them. -/

/-- The characters that are inside of no token. -/
def delimiters : List Char := [' ', '\t', '\r', '\n', '(', ')']

theorem mem_delimiters_of_isBlank {c : Char} (h : isBlank c) : c ∈ delimiters := by
  simp only [isBlank, decide_eq_true_eq] at h
  rcases h with rfl | rfl | rfl <;> decide

/-- A class of characters without delimiters gives texts without delimiters. -/
theorem notMem_delimiters_of_all {p : Char → Bool} (hp : delimiters.all fun c => ¬ p c)
    {w : List Char} (hw : w.all p) : ∀ c ∈ w, c ∉ delimiters := fun c hc hdelimiter =>
  of_decide_eq_true (List.all_eq_true.mp hp c hdelimiter) (List.all_eq_true.mp hw c hc)

theorem notMem_delimiters_of_mem_fraction {f : List Char} (h : f ∈ fraction) :
    ∀ c ∈ f, c ∉ delimiters := by
  have hdigits : ∀ {ds : List Char}, ds ∈ digit∗ → ∀ c ∈ ds, c ∉ delimiters := fun hds =>
    notMem_delimiters_of_all (by decide) (isClass_digit.mem_kstar.mp hds)
  obtain ⟨fs, hfs, x, hx, rfl⟩ := Language.mem_mul.mp h
  intro c hc
  rcases List.mem_append.mp hc with hc | hc
  · exact hdigits hfs c hc
  · rcases hx with rfl | hx
    · cases hc
    · obtain ⟨e, v, rfl, he, hv⟩ := isClass_exponentMark.mem_mul.mp hx
      obtain ⟨sign, hsign, ds, hds, rfl⟩ := Language.mem_mul.mp hv
      rcases List.mem_cons.mp hc with rfl | hc
      · rcases of_decide_eq_true he with rfl | rfl <;> decide
      · rcases List.mem_append.mp hc with hc | hc
        · rcases hsign with rfl | rfl
          · cases hc
          · rw [List.mem_singleton.mp hc]
            decide
        · exact hdigits hds c hc

/-- Behind the first character of a token there is no delimiter. -/
theorem Spelling.notMem_delimiters {cls : Class} {c : Char} {w : List Char} (h : Spelling cls c w)
    (hcls : cls ≠ .blank) : ∀ d ∈ w, d ∉ delimiters := by
  cases h with
  | blank _ _ => exact absurd rfl hcls
  | word _ hw => exact notMem_delimiters_of_all (by decide) hw
  | keyword h => exact notMem_delimiters_of_all (by decide) (letters_of_mem_keywords h).2
  | decimal _ _ hw => exact notMem_delimiters_of_all (by decide) hw
  | octal hw => exact notMem_delimiters_of_all (by decide) hw
  | hex hx hw =>
    refine List.forall_mem_cons.mpr ⟨?_, notMem_delimiters_of_all (by decide) hw⟩
    rcases hx with rfl | rfl <;> decide
  | float _ hds _ hf =>
    rw [List.forall_mem_append, List.forall_mem_cons]
    exact ⟨notMem_delimiters_of_all (by decide) hds, by decide,
      notMem_delimiters_of_mem_fraction hf⟩
  | point hd hf =>
    refine List.forall_mem_cons.mpr ⟨fun hdelimiter => ?_, notMem_delimiters_of_mem_fraction hf⟩
    have hdigit : delimiters.all fun c => ¬ c.isDigit := by decide
    exact of_decide_eq_true (List.all_eq_true.mp hdigit _ hdelimiter) hd
  | symbol h =>
    have htable : symbols.all fun entry => entry.1.tail.all fun d => d ∉ delimiters := by decide
    intro d hd
    exact of_decide_eq_true (List.all_eq_true.mp (List.all_eq_true.mp htable _ h) d hd)

/-- A text with a pattern that goes on with a delimiter behind some text consists of blanks. -/
theorem prefix_or_blank_of_matches {cls : Class} {u v t : List Char} {b : Char}
    (hmatch : cls.Matches v) (hbegin : v <+: u ++ b :: t) (hu : u ≠ []) (hb : b ∈ delimiters) :
    v <+: u ∨ (u.all isBlank ∧ isBlank b) := by
  rcases Nat.lt_or_ge u.length v.length with hlong | hshort
  · right
    have hwhole : u ++ [b] <+: u ++ b :: t := ⟨t, by simp⟩
    obtain ⟨r, rfl⟩ : u ++ [b] <+: v :=
      List.prefix_of_prefix_length_le hwhole hbegin (by rw [List.length_append]; exact hlong)
    obtain ⟨c, w, rfl⟩ := List.exists_cons_of_ne_nil hu
    have hcls : cls = .blank := by
      by_contra hcls
      exact (Spelling.of_matches hmatch).notMem_delimiters hcls b (by simp) hb
    rw [hcls] at hmatch
    have hall := List.all_eq_true.mp (isClass_blank.mem_oneOrMore.mp hmatch).2
    refine ⟨List.all_eq_true.mpr fun d hd => hall d ?_, hall b (by simp)⟩
    exact List.mem_append_left _ (List.mem_append_left _ hd)
  · exact .inl (List.prefix_of_prefix_length_le hbegin (List.prefix_append u _) hshort)

/-! ### First lexemes of pieces

The first lexeme of a text is the longest one that has a pattern. Whether a longer one is possible
in a longer text is decided at the delimiter. -/

theorem IsFirst.text_prefix {text : List Char} {x : Lexeme} (h : IsFirst text x) :
    x.text <+: text := by
  cases h with
  | longest _ hbegin _ => exact hbegin
  | stray hbegin _ => exact hbegin

theorem exists_isFirst {u : List Char} (hu : u ≠ []) :
    ∃ x rest, IsFirst u x ∧ u = x.text ++ rest := by
  obtain ⟨c, w, rfl⟩ := List.exists_cons_of_ne_nil hu
  have hfirst := isFirst_scan c w
  obtain ⟨rest, hrest⟩ := hfirst.text_prefix
  exact ⟨_, rest, hfirst, hrest.symm⟩

/-- A lexeme that is the first of a text is the first of a beginning of the text that has it. -/
theorem IsFirst.of_prefix {text piece : List Char} {x : Lexeme} (h : IsFirst text x)
    (hpiece : piece <+: text) (hx : x.text <+: piece) : IsFirst piece x := by
  cases h with
  | longest hwins _ hlongest =>
    exact .longest hwins hx fun cls v hmatch hbegin => hlongest cls v hmatch (hbegin.trans hpiece)
  | stray _ hnone =>
    exact .stray hx fun cls v hmatch hbegin => hnone cls v hmatch (hbegin.trans hpiece)

/-- The first lexeme of a text is that of the text in front of a delimiter, unless the text goes on
as the blanks that it consists of. -/
theorem IsFirst.append_delimiter {u t : List Char} {b : Char} {x : Lexeme} (h : IsFirst u x)
    (hb : b ∈ delimiters) (hblank : ¬ (u.all isBlank ∧ isBlank b)) : IsFirst (u ++ b :: t) x := by
  have hu : u ≠ [] := by
    rintro rfl
    exact h.text_ne_nil (List.prefix_nil.mp h.text_prefix)
  have hinside : ∀ {cls : Class} {v : List Char}, cls.Matches v → v <+: u ++ b :: t → v <+: u :=
    fun hmatch hbegin => (prefix_or_blank_of_matches hmatch hbegin hu hb).resolve_right hblank
  have hbegin := h.text_prefix.trans (List.prefix_append u (b :: t))
  cases h with
  | longest hwins _ hlongest =>
    exact .longest hwins hbegin fun cls v hmatch hv => hlongest cls v hmatch (hinside hmatch hv)
  | stray _ hnone =>
    exact .stray hbegin fun cls v hmatch hv => hnone cls v hmatch (hinside hmatch hv)

/-! ### Texts cut between lexemes

A text can always be cut between two of its own lexemes. -/

theorem Lexes.text_eq {text : List Char} {xs : List Lexeme} (h : Lexes text xs) :
    text = xs.flatMap Lexeme.text := by
  rw [lexes_iff.mp h, flatMap_text_cut]

/-- The lexemes in front of a place between two lexemes are those of the text in front of it. -/
theorem Lexes.left {text : List Char} {xs ys : List Lexeme} (h : Lexes text (xs ++ ys)) :
    Lexes (xs.flatMap Lexeme.text) xs := by
  induction xs generalizing text with
  | nil => exact .nil
  | cons x xs ih =>
    rw [List.cons_append] at h
    cases h with
    | @cons _ rest _ hfirst hrest =>
      have hpiece : xs.flatMap Lexeme.text <+: rest := by
        rw [hrest.text_eq, List.flatMap_append]
        exact List.prefix_append _ _
      refine .cons (hfirst.of_prefix ?_ (List.prefix_append _ _)) (ih hrest)
      exact (List.prefix_append_right_inj x.text).mpr hpiece

/-- The same for the lexemes behind the place. -/
theorem Lexes.right {text : List Char} {xs ys : List Lexeme} (h : Lexes text (xs ++ ys)) :
    Lexes (ys.flatMap Lexeme.text) ys := by
  induction xs generalizing text with
  | nil =>
    rw [List.nil_append] at h
    rwa [← h.text_eq]
  | cons x xs ih =>
    rw [List.cons_append] at h
    cases h with
    | cons _ hrest => exact ih hrest

/-! ### Solid lexemes

Up to blanks, the lexemes of a text are those of its pieces. -/

/-- The lexemes that are not blank. -/
def solid (xs : List Lexeme) : List Lexeme := xs.filter fun x => x.cls ≠ .blank

theorem solid_append (xs ys : List Lexeme) : solid (xs ++ ys) = solid xs ++ solid ys :=
  List.filter_append xs ys

theorem solid_cons_of_blank {x : Lexeme} (h : x.cls = .blank) (xs : List Lexeme) :
    solid (x :: xs) = solid xs := List.filter_cons_of_neg (by simp [h])

theorem solid_cons_of_ne {x : Lexeme} (h : x.cls ≠ .blank) (xs : List Lexeme) :
    solid (x :: xs) = x :: solid xs := List.filter_cons_of_pos (by simpa using h)

/-- A blank in front of a text does not show. -/
theorem solid_cut_cons {b : Char} (hb : isBlank b) (t : List Char) :
    solid (cut (b :: t)) = solid (cut t) := by
  have hscan : ∀ {c : Char} (rest : List Char), isBlank c →
      solid (cut (c :: rest)) = solid (cut (rest.drop (runLength isBlank rest))) := by
    intro c rest hc
    have hblank : scan c rest = (.blank, runLength isBlank rest) := by rw [scan, if_pos hc]
    rw [cut_cons, hblank]
    exact solid_cons_of_blank rfl _
  rw [hscan t hb]
  cases t with
  | nil => rfl
  | cons c t =>
    by_cases hc : isBlank c
    · have hrun : runLength isBlank (c :: t) = runLength isBlank t + 1 := by
        rw [runLength, List.takeWhile_cons_of_pos hc]
        rfl
      rw [hrun, List.drop_succ_cons, hscan t hc]
    · have hrun : runLength isBlank (c :: t) = 0 := by
        rw [runLength, List.takeWhile_cons_of_neg hc]
        rfl
      rw [hrun, List.drop_zero]

theorem solid_cut_blanks {w : List Char} (hw : w.all isBlank) (t : List Char) :
    solid (cut (w ++ t)) = solid (cut t) := by
  induction w with
  | nil => rfl
  | cons b w ih =>
    obtain ⟨hb, hw⟩ := (Bool.and_eq_true _ _).mp hw
    rw [List.cons_append, solid_cut_cons hb, ih hw]

/-- **Piece by piece.** In front of a delimiter a text may be cut in two. -/
theorem solid_cut_append {b : Char} (hb : b ∈ delimiters) (u t : List Char) :
    solid (cut (u ++ b :: t)) = solid (cut u) ++ solid (cut (b :: t)) := by
  induction hlength : u.length using Nat.strongRecOn generalizing u with
  | _ n ih =>
    by_cases hblank : u.all isBlank ∧ isBlank b
    · have hnone : solid (cut u) = [] := by
        have hu := solid_cut_blanks hblank.1 []
        rw [List.append_nil] at hu
        rw [hu, cut]
        rfl
      rw [solid_cut_blanks hblank.1, hnone, List.nil_append]
    · by_cases hu : u = []
      · rw [hu, cut]
        rfl
      · obtain ⟨x, rest, hfirst, rfl⟩ := exists_isFirst hu
        have hshorter : rest.length < n := by
          have hpos := List.length_pos_iff.mpr hfirst.text_ne_nil
          rw [List.length_append] at hlength
          omega
        -- the first lexeme of the piece is also the first one of the whole
        have hfirst' := hfirst.append_delimiter (t := t) hb hblank
        rw [List.append_assoc] at hfirst' ⊢
        rw [cut_of_isFirst hfirst', cut_of_isFirst hfirst]
        have ih := ih rest.length hshorter rest rfl
        by_cases hx : x.cls = .blank
        · rw [solid_cons_of_blank hx, solid_cons_of_blank hx, ih]
        · rw [solid_cons_of_ne hx, solid_cons_of_ne hx, ih, List.cons_append]

/-! ### Delimiters as lexemes

The converse of what was said about tokens: a delimiter is found only in a lexeme of its own class.
-/

/-- The classes of the lexemes that consist of delimiters. -/
def delimiterClasses : List Class := [.blank, .token .newline, .token .lparen, .token .rparen]

theorem Spelling.head_notMem_delimiters {cls : Class} {c : Char} {w : List Char}
    (h : Spelling cls c w) (hcls : cls ∉ delimiterClasses) : c ∉ delimiters := by
  have hclass : ∀ {p : Char → Bool}, (delimiters.all fun d => ¬ p d) → p c → c ∉ delimiters :=
    fun hp hc hmem => of_decide_eq_true (List.all_eq_true.mp hp c hmem) hc
  cases h with
  | blank _ _ => exact absurd List.mem_cons_self hcls
  | word hc _ => exact hclass (by decide) hc
  | keyword h => exact hclass (by decide) (letters_of_mem_keywords h).1
  | decimal hc _ _ => exact hclass (by decide) hc
  | octal _ => decide
  | hex _ _ => decide
  | float hc _ _ _ => exact hclass (by decide) hc
  | point _ _ => decide
  | symbol h =>
    have htable : symbols.all fun entry =>
      entry.1.head?.any (· ∈ delimiters) → Class.token entry.2 ∈ delimiterClasses := by decide
    intro hmem
    exact hcls (of_decide_eq_true (List.all_eq_true.mp htable _ h) (decide_eq_true hmem))

/-- A delimiter has a pattern, so it is never stray. -/
theorem exists_matches_of_mem_delimiters {c : Char} (h : c ∈ delimiters) :
    ∃ cls : Class, cls.Matches [c] := by
  by_cases hc : isBlank c
  · exact ⟨_, (Spelling.blank hc rfl).matches⟩
  · have htable : delimiters.all fun d => isBlank d ∨ [d] ∈ symbols.map Prod.fst := by decide
    obtain hblank | hsymbol := of_decide_eq_true (List.all_eq_true.mp htable c h)
    · exact absurd hblank hc
    · obtain ⟨⟨_, kind⟩, hmem, rfl⟩ := List.mem_map.mp hsymbol
      exact ⟨_, (Spelling.symbol hmem).matches⟩

/-- A lexeme of another class has no delimiter at all. -/
theorem IsFirst.notMem_delimiters {text : List Char} {x : Lexeme} (h : IsFirst text x)
    (hcls : x.cls ∉ delimiterClasses) : ∀ c ∈ x.text, c ∉ delimiters := by
  cases h with
  | @longest cls w hwins _ _ =>
    obtain ⟨c, v, rfl⟩ := List.exists_cons_of_ne_nil hwins.1.ne_nil
    have hspelling := Spelling.of_matches hwins.1
    refine List.forall_mem_cons.mpr ⟨hspelling.head_notMem_delimiters hcls, ?_⟩
    exact hspelling.notMem_delimiters fun hblank => hcls (hblank ▸ List.mem_cons_self)
  | @stray c hbegin hnone =>
    refine List.forall_mem_singleton.mpr fun hmem => ?_
    obtain ⟨cls, hmatch⟩ := exists_matches_of_mem_delimiters hmem
    exact hnone cls [c] hmatch hbegin

theorem IsFirst.all_isBlank {text : List Char} {x : Lexeme} (h : IsFirst text x)
    (hcls : x.cls = .blank) : x.text.all isBlank := by
  obtain ⟨cls, w⟩ := x
  obtain rfl : cls = .blank := hcls
  exact (isClass_blank.mem_oneOrMore.mp (h.isGenuine.resolve_right fun h => by cases h)).2

/-- A lexeme of one of these classes is one character, unless it is blank. -/
theorem IsFirst.text_of_cls {text : List Char} {x : Lexeme} (h : IsFirst text x) :
    (x.cls = .token .newline → x.text = ['\n']) ∧ (x.cls = .token .lparen → x.text = ['(']) ∧
      (x.cls = .token .rparen → x.text = [')']) := by
  obtain ⟨cls, w⟩ := x
  refine ⟨?_, ?_, ?_⟩ <;> rintro ⟨⟩ <;> exact h.isGenuine.mem_pattern

/-- A delimiter in a lexeme gives the class away. -/
theorem IsFirst.cls_of_mem {text : List Char} {x : Lexeme} {c : Char} (h : IsFirst text x)
    (hmem : c ∈ x.text) (hc : c ∈ delimiters) :
    (isBlank c ∧ x.cls = .blank) ∨ (c = '\n' ∧ x.cls = .token .newline) ∨
      (c = '(' ∧ x.cls = .token .lparen) ∨ (c = ')' ∧ x.cls = .token .rparen) := by
  have hcls : x.cls ∈ delimiterClasses := by
    by_contra hcls
    exact h.notMem_delimiters hcls c hmem hc
  obtain ⟨hbreak, hlparen, hrparen⟩ := h.text_of_cls
  rw [delimiterClasses, List.mem_cons, List.mem_cons, List.mem_cons, List.mem_singleton] at hcls
  rcases hcls with hcls | hcls | hcls | hcls
  · exact .inl ⟨List.all_eq_true.mp (h.all_isBlank hcls) c hmem, hcls⟩
  · rw [hbreak hcls, List.mem_singleton] at hmem
    exact .inr (.inl ⟨hmem, hcls⟩)
  · rw [hlparen hcls, List.mem_singleton] at hmem
    exact .inr (.inr (.inl ⟨hmem, hcls⟩))
  · rw [hrparen hcls, List.mem_singleton] at hmem
    exact .inr (.inr (.inr ⟨hmem, hcls⟩))

/-! ### Parentheses

A parenthesis is always a lexeme, so lexemes and characters give the same count. -/

/-- A lexeme opens or closes a parenthesis exactly if it is one. -/
theorem IsFirst.nesting_eq {text : List Char} {x : Lexeme} (h : IsFirst text x) :
    x.nesting = (x.text.count '(' : ℤ) - x.text.count ')' := by
  by_cases hlparen : x.cls = .token .lparen
  · rw [nesting, hlparen, h.text_of_cls.2.1 hlparen]
    rfl
  by_cases hrparen : x.cls = .token .rparen
  · rw [nesting, hrparen, h.text_of_cls.2.2 hrparen]
    rfl
  have hopen : '(' ∉ x.text := by
    intro hmem
    rcases h.cls_of_mem hmem (by decide) with ⟨hc, -⟩ | ⟨hc, -⟩ | ⟨-, hcls⟩ | ⟨hc, -⟩
    · exact absurd hc (by decide)
    · exact absurd hc (by decide)
    · exact hlparen hcls
    · exact absurd hc (by decide)
  have hclose : ')' ∉ x.text := by
    intro hmem
    rcases h.cls_of_mem hmem (by decide) with ⟨hc, -⟩ | ⟨hc, -⟩ | ⟨hc, -⟩ | ⟨-, hcls⟩
    · exact absurd hc (by decide)
    · exact absurd hc (by decide)
    · exact absurd hc (by decide)
    · exact hrparen hcls
  rw [List.count_eq_zero_of_not_mem hopen, List.count_eq_zero_of_not_mem hclose, nesting]
  split
  · next kind hkind =>
    refine TokenKind.nesting_eq_zero ?_ ?_
    · rintro rfl
      exact hlparen hkind
    · rintro rfl
      exact hrparen hkind
  · rfl

theorem Lexes.sum_nesting {text : List Char} {xs : List Lexeme} (h : Lexes text xs) :
    (xs.map nesting).sum = (text.count '(' : ℤ) - text.count ')' := by
  induction h with
  | nil => rfl
  | cons hfirst _ ih =>
    rw [List.map_cons, List.sum_cons, ih, hfirst.nesting_eq, List.count_append, List.count_append]
    omega

/-- The lexemes of a text open and close the parentheses that the text has. -/
theorem sum_nesting_cut (u : List Char) :
    ((cut u).map nesting).sum = (u.count '(' : ℤ) - u.count ')' :=
  (lexes_iff.mpr rfl).sum_nesting

end Lexeme

/-! ### What tokens depend on

A line break is a token only where as many parentheses have been closed as opened. Neither its kind
nor its payload depend on what stands in front of a lexeme in any other way. -/

open Lexeme

theorem Cursor.advance_of_blank {x : Lexeme} (h : x.cls = .blank) (cur : Cursor) :
    cur.advance x = cur := by rw [advance, h]

/-- Blanks give nothing. -/
theorem contents_solid (cur : Cursor) (xs : List Lexeme) :
    contents cur (solid xs) = contents cur xs := by
  induction xs generalizing cur with
  | nil => rfl
  | cons x xs ih =>
    by_cases hx : x.cls = .blank
    · rw [solid_cons_of_blank hx, contents_cons, if_pos (.inl hx), cur.advance_of_blank hx, ih]
      rfl
    · rw [solid_cons_of_ne hx, contents_cons, contents_cons, ih]

/-- Blanks do not move the cursor. -/
theorem Cursor.advanceAll_solid (cur : Cursor) (xs : List Lexeme) :
    cur.advanceAll (solid xs) = cur.advanceAll xs := by
  induction xs generalizing cur with
  | nil => rfl
  | cons x xs ih =>
    have hadvance : cur.advanceAll (x :: xs) = (cur.advance x).advanceAll xs := rfl
    by_cases hx : x.cls = .blank
    · rw [solid_cons_of_blank hx, ih, hadvance, cur.advance_of_blank hx]
    · rw [solid_cons_of_ne hx, hadvance, ← ih]
      rfl

/-- The depth behind a text is the number of its parentheses, counted by characters. -/
theorem Cursor.depth_start_advanceAll (u : List Char) :
    (Cursor.start.advanceAll (cut u)).depth = (u.count '(' : ℤ) - u.count ')' := by
  rw [depth_advanceAll, sum_nesting_cut]
  exact Int.zero_add _

/-- Of the place where lexemes stand, only the open parentheses count. -/
theorem contents_congr_depth {cur cur' : Cursor} (h : cur.depth = cur'.depth) (xs : List Lexeme) :
    contents cur xs = contents cur' xs := by
  induction xs generalizing cur cur' with
  | nil => rfl
  | cons x xs ih =>
    have hadvance : (cur.advance x).depth = (cur'.advance x).depth := by
      rw [Cursor.depth_advance, Cursor.depth_advance, h]
    rw [contents_cons, contents_cons, h, ih hadvance]

end ArrowCalc
