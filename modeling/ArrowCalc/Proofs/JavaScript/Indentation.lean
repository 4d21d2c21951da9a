import ArrowCalc.Proofs.Composition
import ArrowCalc.Proofs.JavaScript.Emission
import ArrowCalc.Proofs.Preorder

/-!
# Lines and braces of scripts

A statement takes one line, and every function in it two more: its body and its closing brace begin
new lines. However functions are nested, a line has an opening brace at its end only and a closing
one at its beginning only, and its indentation is what the braces before it ask for.

## What is said about a line

The specification looks at the finished text and not at the writer. A line is tidy if its
indentation is two blanks for each brace that the lines before it have opened and not closed, one
brace less if it begins with a closing one. It counts characters of the text, and does not know
about the level that the writer keeps. That the two agree is what has to be proved, and
`Script.Nests` is the invariant for it: behind every piece the level is the number of open braces.

## How the text is followed

The text is followed piece by piece. Between two pieces it either ends with a complete line
(`Script.Complete`) or in the middle of one (`Script.Partial`). A semicolon or an opening brace
completes a line. Since neither is blank, no line is blank, and leaving out blank lines takes away
nothing but the last line feed.

A line that is being written is a draft: it has no opening brace yet, because an opening brace ends
it. Its body may still be empty, which is the state behind the indentation. This is why a text that
goes on with a line may not begin with a blank, and why the blank behind a minus sign has to be
taken together with the sign.

## Main definitions

* `Script.IsTidy` — the indentation and the braces of a line
* `Script.Nests` — how many braces are open at the end of a text
* `Script.Lays` — what a writer does to a line that is being written

## Main results

* `Script.Partial.append`, `Script.Partial.finish`, `Script.Complete.indent`,
  `Script.Complete.close` — what the pieces do
* `Script.laysTree_of_fits` — a phrase goes on with a line, and adds two for each function
* `Mode.compile_layout` — the layout of a script
-/

namespace ArrowCalc

open Text (isBlank)

namespace Script

/-! ### Lines

Tidy lines and drafts differ in two points. A draft may be without a body, and it has no opening
brace, while a tidy line may end with one. -/

/-- The line is made up of two blanks for each brace that is open before it, and of a body that does
not begin with a blank. A closing brace stands only at the beginning of the body, and then the line
is indented by one level less. An opening brace stands only at the end. -/
def IsTidy (before line : List Char) : Prop :=
  ∃ n body, line = List.replicate (2 * n) ' ' ++ body ∧ (∃ c ∈ body.head?, ¬ isBlank c) ∧
    '\x7d' ∉ body.tail ∧ '\x7b' ∉ body.dropLast ∧
    n + before.count '\x7d' + (if body.head? = some '\x7d' then 1 else 0) = before.count '\x7b'

/-- The line becomes tidy when it is completed. It may still be without a body, and no brace has
been opened on it. -/
def IsDraft (before line : List Char) : Prop :=
  ∃ n body, line = List.replicate (2 * n) ' ' ++ body ∧ (∀ c ∈ body.head?, ¬ isBlank c) ∧
    '\x7d' ∉ body.tail ∧ '\x7b' ∉ body ∧
    n + before.count '\x7d' + (if body.head? = some '\x7d' then 1 else 0) = before.count '\x7b'

/-- Nothing in the line ends a line. -/
def Unbroken (line : List Char) : Prop := '\n' ∉ line ∧ '\r' ∉ line

instance (line : List Char) : Decidable (Unbroken line) := inferInstanceAs (Decidable (_ ∧ _))

/-- The character neither ends a line nor is a brace. -/
def isInline (c : Char) : Bool := c ∉ ['\n', '\r', '\x7b', '\x7d']

/-- The text goes on with a line: it is made up of such characters and does not begin with a
blank. -/
structure Continues (text : List Char) : Prop where
  inline : text.all isInline
  start : text.head?.all (!isBlank ·)

instance (text : List Char) : Decidable (Continues text) :=
  decidable_of_iff (text.all isInline ∧ text.head?.all (!isBlank ·))
    ⟨fun h => ⟨h.1, h.2⟩, fun h => ⟨h.inline, h.start⟩⟩

section Lines

variable {before line text : List Char}

theorem Continues.notMem (h : Continues text) {c : Char} (hc : isInline c = false) : c ∉ text := by
  intro hmem
  rw [List.all_eq_true.mp h.inline c hmem] at hc
  cases hc

theorem Continues.not_isBlank (h : Continues text) : ∀ c ∈ text.head?, ¬ isBlank c := by
  intro c hc
  simpa using (Option.all_eq_true _ _).mp h.start c hc

theorem Unbroken.append (h : Unbroken line) (h' : Unbroken text) : Unbroken (line ++ text) := by
  simp only [Unbroken, List.mem_append, not_or]
  exact ⟨⟨h.1, h'.1⟩, h.2, h'.2⟩

theorem Continues.unbroken (h : Continues text) : Unbroken text :=
  ⟨h.notMem (by decide), h.notMem (by decide)⟩

theorem unbroken_indentation (n : ℕ) : Unbroken (List.replicate n ' ') := by
  constructor <;> intro h <;> exact absurd (List.eq_of_mem_replicate h) (by decide)

/-- A draft stays one while it goes on. If it was without a body, the text becomes the body, and it
does not begin with a closing brace either. -/
theorem IsDraft.append (h : IsDraft before line) (htext : Continues text) :
    IsDraft before (line ++ text) := by
  obtain ⟨n, body, rfl, hstart, hclosing, hopening, hcount⟩ := h
  have hclose : '\x7d' ∉ text := htext.notMem (by decide)
  have hopen : '\x7b' ∉ text := htext.notMem (by decide)
  refine ⟨n, body ++ text, List.append_assoc _ _ _, ?_⟩
  cases body with
  | nil =>
    refine ⟨htext.not_isBlank, fun hmem => hclose (List.mem_of_mem_tail hmem), hopen, ?_⟩
    have hhead : text.head? ≠ some '\x7d' := fun hhead => hclose (List.mem_of_head? hhead)
    rw [if_neg (by simp)] at hcount
    rw [List.nil_append, if_neg hhead, hcount]
  | cons c body =>
    refine ⟨hstart, ?_, ?_, hcount⟩
    · simpa [hclose] using hclosing
    · simpa [hopen] using hopening

/-- The last character of a line, which may be an opening brace and may not be a closing one. -/
theorem IsDraft.isTidy (h : IsDraft before line) {c : Char} (hblank : ¬ isBlank c)
    (hc : c ≠ '\x7d') : IsTidy before (line ++ [c]) := by
  obtain ⟨n, body, rfl, hstart, hclosing, hopening, hcount⟩ := h
  refine ⟨n, body ++ [c], List.append_assoc _ _ _, ?_⟩
  rw [List.dropLast_concat]
  cases body with
  | nil => exact ⟨⟨c, rfl, hblank⟩, List.not_mem_nil, hopening, by simpa [hc] using hcount⟩
  | cons d body =>
    exact ⟨⟨d, rfl, hstart d rfl⟩, by simpa [hc.symm] using hclosing, hopening, hcount⟩

theorem IsTidy.not_all_isBlank (h : IsTidy before line) : ¬ line.all isBlank := by
  obtain ⟨n, body, rfl, ⟨c, hc, hblank⟩, -⟩ := h
  intro hall
  exact hblank (List.all_eq_true.mp hall c (List.mem_append_right _ (List.mem_of_head? hc)))

end Lines

/-! ### Texts made up of lines

While a script is written every line has a line feed behind it. In the finished text the last one is
gone, and the lines stand between line feeds (`ended_eq`). -/

/-- The lines, each with a line feed behind it. -/
def ended (lines : List (List Char)) : List Char := lines.flatMap (· ++ ['\n'])

theorem ended_concat (lines : List (List Char)) (line : List Char) :
    ended (lines ++ [line]) = ended lines ++ (line ++ ['\n']) := by
  simp [ended]

theorem count_ended {c : Char} (hc : c ≠ '\n') (lines : List (List Char)) :
    (ended lines).count c = lines.flatten.count c := by
  induction lines with
  | nil => rfl
  | cons line lines ih =>
    rw [ended] at ih ⊢
    simp [ih, hc.symm]

theorem ended_eq {lines : List (List Char)} (hne : lines ≠ []) :
    ended lines = ['\n'].intercalate lines ++ ['\n'] := by
  induction lines with
  | nil => exact absurd rfl hne
  | cons line lines ih =>
    cases lines with
    | nil => simp [ended]
    | cons next lines =>
      rw [List.intercalate_cons_cons, List.append_assoc, ← ih (List.cons_ne_nil _ _)]
      simp [ended]

/-- Every line is tidy behind those before it. -/
structure IsLaidOut (lines : List (List Char)) : Prop where
  unbroken : ∀ line ∈ lines, Unbroken line
  tidy : ∀ i line, lines[i]? = some line → IsTidy (lines.take i).flatten line

theorem isLaidOut_nil : IsLaidOut [] where
  unbroken := List.forall_mem_nil _
  tidy i line h := by simp at h

/-- One more line, which is tidy behind all the others. -/
theorem IsLaidOut.concat {lines : List (List Char)} {line : List Char} (h : IsLaidOut lines)
    (hunbroken : Unbroken line) (htidy : IsTidy lines.flatten line) :
    IsLaidOut (lines ++ [line]) where
  unbroken := by
    rw [List.forall_mem_append, List.forall_mem_singleton]
    exact ⟨h.unbroken, hunbroken⟩
  tidy i line' hline := by
    rcases Nat.lt_trichotomy i lines.length with hlt | rfl | hgt
    · rw [List.getElem?_append_left hlt] at hline
      rw [List.take_append_of_le_length hlt.le]
      exact h.tidy i line' hline
    · rw [List.getElem?_concat_length] at hline
      obtain rfl := Option.some.inj hline
      rwa [List.take_left]
    · rw [List.getElem?_eq_none (by simp; omega)] at hline
      cases hline

/-! ### Braces

The number of open braces is a difference of counts. It never becomes negative, which is said for
all beginnings of the text, so that the braces are balanced and not only equally many. -/

/-- No brace is closed that is not open, and `level` braces are open at the end. -/
structure Nests (level : ℕ) (cs : List Char) : Prop where
  within : ∀ pre, pre <+: cs → pre.count '\x7d' ≤ pre.count '\x7b'
  total : cs.count '\x7b' = cs.count '\x7d' + level

section Nests

variable {level level' : ℕ} {cs text : List Char}

theorem nests_nil : Nests 0 [] where
  within pre hpre := by simp [List.prefix_nil.mp hpre]
  total := rfl

/-- One more character, of which only the totals have to be checked: the new beginning is the whole
text. -/
theorem Nests.concat (h : Nests level cs) {c : Char}
    (htotal : (cs ++ [c]).count '\x7b' = (cs ++ [c]).count '\x7d' + level') :
    Nests level' (cs ++ [c]) where
  within pre hpre := by
    rcases List.prefix_concat_iff.mp hpre with rfl | hpre
    · omega
    · exact h.within pre hpre
  total := htotal

theorem Nests.opened (h : Nests level cs) : Nests (level + 1) (cs ++ ['\x7b']) := by
  refine h.concat ?_
  have htotal := h.total
  simp
  omega

theorem Nests.closed (h : Nests (level + 1) cs) : Nests level (cs ++ ['\x7d']) := by
  refine h.concat ?_
  have htotal := h.total
  simp
  omega

/-- Text without braces changes nothing. -/
theorem Nests.append (h : Nests level cs) (hopen : '\x7b' ∉ text) (hclose : '\x7d' ∉ text) :
    Nests level (cs ++ text) := by
  induction text generalizing cs with
  | nil => rwa [List.append_nil]
  | cons c text ih =>
    obtain ⟨hc, hopen⟩ := List.ne_and_not_mem_of_not_mem_cons hopen
    obtain ⟨hc', hclose⟩ := List.ne_and_not_mem_of_not_mem_cons hclose
    rw [← List.singleton_append, ← List.append_assoc]
    refine ih (h.concat ?_) hopen hclose
    simpa [List.count_singleton, hc.symm, hc'.symm] using h.total

end Nests

/-! ### Complete and partial texts

The two states between pieces, and the four steps that lead from one to the other. -/

/-- The text is made up of `n` lines, with `level` open braces behind the last one. -/
def Complete (level n : ℕ) (cs : List Char) : Prop :=
  ∃ lines, lines.length = n ∧ cs = ended lines ∧ IsLaidOut lines ∧ Nests level cs

/-- The text is made up of `n` lines and of a line that is being written, with `level` open braces
so far. -/
def Partial (level n : ℕ) (cs : List Char) : Prop :=
  ∃ lines line, lines.length = n ∧ cs = ended lines ++ line ∧ IsLaidOut lines ∧ Unbroken line ∧
    IsDraft lines.flatten line ∧ Nests level cs

section Steps

variable {level n : ℕ} {cs : List Char}

theorem complete_nil : Complete 0 0 [] := ⟨[], rfl, rfl, isLaidOut_nil, nests_nil⟩

theorem Nests.append_indentation (h : Nests level cs) (k : ℕ) :
    Nests level (cs ++ List.replicate k ' ') := by
  refine h.append ?_ ?_ <;> intro hmem <;> exact absurd (List.eq_of_mem_replicate hmem) (by decide)

/-- The braces that are open in front of a new line. -/
theorem Nests.flatten {lines : List (List Char)} (h : Nests level (ended lines)) :
    level + lines.flatten.count '\x7d' = lines.flatten.count '\x7b' := by
  have htotal := h.total
  rw [count_ended (by decide), count_ended (by decide)] at htotal
  omega

/-- A line begins on the level of the braces before it. -/
theorem Complete.indent (h : Complete level n cs) :
    Partial level n (cs ++ List.replicate (2 * level) ' ') := by
  obtain ⟨lines, hlength, rfl, hlines, hnests⟩ := h
  have hdraft : IsDraft lines.flatten (List.replicate (2 * level) ' ') :=
    ⟨level, [], (List.append_nil _).symm, by simp, by simp, by simp, by simpa using hnests.flatten⟩
  exact ⟨lines, _, hlength, rfl, hlines, unbroken_indentation _, hdraft,
    hnests.append_indentation _⟩

/-- A line that closes a brace begins one level above. -/
theorem Complete.close (h : Complete (level + 1) n cs) :
    Partial level n (cs ++ List.replicate (2 * level) ' ' ++ ['\x7d']) := by
  obtain ⟨lines, hlength, rfl, hlines, hnests⟩ := h
  have hbrace : ∀ c ∈ ['\x7d'].head?, ¬ isBlank c := by
    intro c hc
    rw [← Option.some.inj hc]
    decide
  have hdraft : IsDraft lines.flatten (List.replicate (2 * level) ' ' ++ ['\x7d']) := by
    refine ⟨level, ['\x7d'], rfl, hbrace, by decide, by decide, ?_⟩
    have hflatten := hnests.flatten
    simp
    omega
  exact ⟨lines, _, hlength, List.append_assoc _ _ _, hlines,
    (unbroken_indentation _).append (by decide), hdraft, (hnests.append_indentation _).closed⟩

/-- A piece that goes on with the line. -/
theorem Partial.append (h : Partial level n cs) {text : List Char} (htext : Continues text) :
    Partial level n (cs ++ text) := by
  obtain ⟨lines, line, hlength, rfl, hlines, hunbroken, hdraft, hnests⟩ := h
  refine ⟨lines, line ++ text, hlength, List.append_assoc _ _ _, hlines,
    hunbroken.append htext.unbroken, hdraft.append htext, ?_⟩
  exact hnests.append (htext.notMem (by decide)) (htext.notMem (by decide))

/-- A character that is not blank completes the line. -/
theorem Partial.finish (h : Partial level n cs) {level' : ℕ} {c : Char} (hblank : ¬ isBlank c)
    (hc : c ≠ '\x7d') (hnests : Nests level cs → Nests level' (cs ++ [c])) :
    Complete level' (n + 1) (cs ++ [c, '\n']) := by
  obtain ⟨lines, line, rfl, rfl, hlines, hunbroken, hdraft, hopen⟩ := h
  have hend : Unbroken [c] := by
    constructor <;> intro hmem <;> rw [← List.mem_singleton.mp hmem] at hblank <;>
      exact hblank (by decide)
  refine ⟨lines ++ [line ++ [c]], by simp, by simp [ended_concat],
    hlines.concat (hunbroken.append hend) (hdraft.isTidy hblank hc), ?_⟩
  have hbreak : Nests level' (ended lines ++ line ++ [c] ++ ['\n']) :=
    (hnests hopen).append (by decide) (by decide)
  rwa [List.append_assoc _ [c]] at hbreak

/-- A semicolon completes the line and leaves the braces as they are. -/
theorem Partial.endLine {text : String} (h : Partial level n text.toList) :
    Complete level (n + 1) (text ++ ";\n").toList := by
  have hline := h.finish (c := ';') (by decide) (by decide)
    fun hnests => hnests.append (by decide) (by decide)
  simpa using hline

end Steps

/-! ### Writers

A writer of an expression is called in the middle of a line and stops in the middle of one, perhaps
two or more lines below. -/

/-- The writer goes on with the line that is being written. It adds two lines for each of `blocks`
functions, and ends on the level on which it began. -/
def Lays (w : Writer Unit) (blocks : ℕ) : Prop :=
  ∀ s n, Partial s.level n s.out.toList → ∃ text : String,
    w s = .ok () { s with out := text } ∧ Partial s.level (n + 2 * blocks) text.toList

section Lays

variable {w w' : Writer Unit} {blocks blocks' : ℕ}

/-- The functions of two writers in a row are added up. -/
theorem Lays.bind (h : Lays w blocks) (h' : Lays w' blocks') :
    Lays (do w; w') (blocks + blocks') := by
  intro s n hs
  obtain ⟨text, hrun, htext⟩ := h s n hs
  obtain ⟨text', hrun', htext'⟩ := h' { s with out := text } _ htext
  refine ⟨text', (bind_of_ok hrun).trans hrun', ?_⟩
  rwa [Nat.mul_add, ← Nat.add_assoc]

theorem lays_pure : Lays (pure ()) 0 := fun s _ hs => ⟨s.out, rfl, hs⟩

theorem lays_put {text : String} (h : Continues text.toList) : Lays (put text) 0 := by
  intro s n hs
  refine ⟨s.out ++ text, rfl, ?_⟩
  rw [String.toList_append]
  exact hs.append h

theorem Lays.put_bind (h : Lays w blocks) {text : String} (htext : Continues text.toList) :
    Lays (do put text; w) blocks := by
  have hall := (lays_put htext).bind h
  rwa [Nat.zero_add] at hall

theorem Lays.bind_put (h : Lays w blocks) {text : String} (htext : Continues text.toList) :
    Lays (do w; put text) blocks := h.bind (lays_put htext)

/-- What stands behind a minus sign goes on with the line, with or without a blank. -/
theorem lays_minus (h : Lays w blocks) (hadds : Adds w none) :
    Lays (do put "-"; afterMinus w) blocks := by
  intro s n hs
  obtain ⟨piece, hpiece⟩ := hadds
  -- a blank alone may not go on with a line, so the gap is written together with the minus sign
  obtain ⟨gap, hgap, hrun⟩ : ∃ gap : String, Continues ("-" ++ gap).toList ∧
      (do put "-"; afterMinus w : Writer Unit) s = (do put ("-" ++ gap); w : Writer Unit) s := by
    refine ⟨if (piece s.level).front? = some '-' then " " else "", ?_, ?_⟩
    · split <;> decide
    · rw [bind_of_ok (rfl : put "-" s = .ok () _), bind_of_ok (rfl : put _ s = .ok () _),
        Script.afterMinus, hpiece, hpiece]
      simp [ending, String.append_assoc]
  rw [hrun]
  exact h.put_bind hgap s n hs

/-- A function takes two lines more than its body. -/
theorem lays_func {head : String} (hhead : Continues head.toList) (h : Lays w blocks) :
    Lays (do
      put (head ++ "\x7b\n")
      nested do indent; put "return "; w; put ";\n"
      indent
      put "\x7d") (blocks + 1) := by
  intro s n hs
  -- the brace completes the line of the head, and the body is part of the next one
  have hopened : Complete (s.level + 1) (n + 1) (s.out ++ (head ++ "\x7b\n")).toList := by
    have hline := (hs.append hhead).finish (c := '\x7b') (by decide) (by decide) Nests.opened
    simpa using hline
  have hreturn : Partial (s.level + 1) (n + 1) (s.out ++ (head ++ "\x7b\n") ++
      String.ofList (List.replicate (2 * (s.level + 1)) ' ') ++ "return ").toList := by
    have hword : Continues "return ".toList := by decide
    simpa using hopened.indent.append hword
  obtain ⟨text, hrun, htext⟩ := h ⟨_, s.level + 1⟩ _ hreturn
  refine ⟨text ++ ";\n" ++ String.ofList (List.replicate (2 * s.level) ' ') ++ "\x7d", ?_, ?_⟩
  · have hinner : Script.nested (do indent; put "return "; w; put ";\n")
        ⟨s.out ++ (head ++ "\x7b\n"), s.level⟩ = .ok () ⟨text ++ ";\n", s.level⟩ := by
      rw [Script.nested, bind_of_ok (rfl : indent _ = .ok () _),
        bind_of_ok (rfl : put "return " _ = .ok () _), bind_of_ok hrun]
      rfl
    rw [bind_of_ok (rfl : put _ s = .ok () _), bind_of_ok hinner]
    rfl
  · have hline := htext.endLine.close
    rw [show n + 2 * (blocks + 1) = n + 1 + 2 * blocks + 1 by omega]
    simpa using hline

theorem lays_writeMoreArgs {blocks : Expr → ℕ} {args : List Expr}
    (h : ∀ e ∈ args, Lays (write false e) (blocks e)) :
    Lays (writeMoreArgs args) (args.map blocks).sum := by
  induction args with
  | nil =>
    rw [writeMoreArgs]
    exact lays_pure
  | cons e args ih =>
    obtain ⟨he, hargs⟩ := List.forall_mem_cons.mp h
    rw [writeMoreArgs, List.map_cons, List.sum_cons]
    exact (he.bind (ih hargs)).put_bind (by decide)

theorem lays_writeArgs {blocks : Expr → ℕ} {args : List Expr}
    (h : ∀ e ∈ args, Lays (write false e) (blocks e)) :
    Lays (writeArgs args) (args.map blocks).sum := by
  cases args with
  | nil =>
    rw [writeArgs]
    exact lays_pure
  | cons e args =>
    obtain ⟨he, hargs⟩ := List.forall_mem_cons.mp h
    rw [writeArgs, List.map_cons, List.sum_cons]
    exact he.bind (lays_writeMoreArgs hargs)

end Lays

end Script

/-! ### Functions of a tree

The number of lines is stated with the number of functions, which is counted over all nodes of a
tree and does not follow the writer. -/

namespace Expr

/-- Whether the root is a function. -/
def isFunc : Expr → Bool
  | func _ _ => true
  | _ => false

/-- The number of functions in a tree. -/
def functions (e : Expr) : ℕ := e.preorder.countP isFunc

theorem functions_eq (e : Expr) :
    e.functions = (if e.isFunc then 1 else 0) + (e.children.map functions).sum := by
  rw [functions, preorder_eq, List.countP_cons, List.countP_flatMap, Nat.add_comm]
  rfl

theorem functions_eq_sum {e : Expr} (h : e.isFunc = false) :
    e.functions = (e.children.map functions).sum := by
  simp [functions_eq e, h]

end Expr

namespace Script

/-! ### Names and integers

The pieces that depend on the tree go on with a line, because they are made up of the characters of
words. -/

theorem continues_of_isWordChar {text : List Char} (h : ∀ c ∈ text, JavaScript.isWordChar c) :
    Continues text where
  inline := by
    have hspecial : ['\n', '\r', '\x7b', '\x7d'].all (!JavaScript.isWordChar ·) := by decide
    refine List.all_eq_true.mpr fun c hc => decide_eq_true fun hmem => ?_
    have hnot := List.all_eq_true.mp hspecial c hmem
    rw [h c hc] at hnot
    cases hnot
  start := by
    refine (Option.all_eq_true _ _).mpr fun c hc => ?_
    simpa using JavaScript.not_isBlank_of_isWordChar (h c (List.mem_of_head? hc))

theorem continues_name {name : String} (h : IsIdentifier name) : Continues name.toList := by
  obtain ⟨c, cs, hname, hword, -, hcs⟩ := JavaScript.exists_letter h
  rw [hname]
  refine continues_of_isWordChar (List.forall_mem_cons.mpr ⟨hword, fun d hd => ?_⟩)
  exact JavaScript.isWordChar_of_isAlphanum (List.all_eq_true.mp hcs d hd)

theorem continues_repr {value : ℤ} (h : IsLiteral value) : Continues value.repr.toList := by
  obtain ⟨n, rfl⟩ := Int.eq_ofNat_of_zero_le h.1
  refine continues_of_isWordChar fun c hc => JavaScript.isWordChar_of_isAlphanum ?_
  have hdigits := List.all_eq_true.mp (JavaScript.isInteger_repr n).2.1 c hc
  simp [Char.isAlphanum, hdigits]

/-- Behind a first piece that is not empty, blanks are allowed at the beginning of the next one. -/
theorem Continues.append {text text' : List Char} (h : Continues text) (hne : text ≠ [])
    (h' : text'.all isInline) : Continues (text ++ text') where
  inline := by rw [List.all_append, h.inline, h', Bool.and_true]
  start := by
    rw [List.head?_append_of_ne_nil _ hne]
    exact h.start

theorem continues_let {name : String} (h : IsIdentifier name) :
    Continues ("let " ++ name ++ " = ").toList := by
  have hlet : Continues "let ".toList := by decide
  rw [String.append_assoc, String.toList_append, String.toList_append]
  refine hlet.append (by decide) ?_
  rw [List.all_append, (continues_name h).inline]
  decide

theorem continues_params {params : List String} (h : ∀ x ∈ params, IsIdentifier x) :
    Continues ("(" ++ ", ".intercalate params ++ ") => ").toList := by
  have hparams : (", ".intercalate params).toList.all isInline := by
    rw [String.toList_intercalate, List.all_eq_true]
    refine forall_mem_intercalate (List.all_eq_true.mp (by decide))
      (List.forall_mem_map.mpr fun param hparam => ?_)
    exact List.all_eq_true.mp (continues_name (h param hparam)).inline
  have hopen : Continues "(".toList := by decide
  rw [String.append_assoc, String.toList_append, String.toList_append]
  refine hopen.append (by decide) ?_
  rw [List.all_append, hparams]
  decide

/-! ### Phrases

One lemma for each kind of node, and an induction on the layers of the tree. The layers are needed
for two things only: names and integers are what they should be, and nothing in the tree is
malformed. -/

/-- The tree is written as part of a line, with two more lines for each function in it. -/
def LaysTree (e : Expr) : Prop := ∀ bare, Lays (write bare e) e.functions

theorem continues_symbol (op : BinaryOp) : Continues op.symbol.toList := by
  cases op <;> decide

theorem laysTree_binary {left right : Expr} (hleft : LaysTree left) (hright : LaysTree right)
    (hfault : right.fault? = none) (op : BinaryOp) : LaysTree (.binary op left right) := by
  intro bare
  rw [Expr.functions_eq_sum rfl]
  cases op with
  | pow =>
    have hclose : Continues ")".toList := by decide
    have hcomma : Continues ", ".toList := by decide
    rw [write]
    exact ((hleft true).bind (((hright true).bind_put hclose).put_bind hcomma)).put_bind (by decide)
  | sub =>
    have hadds := adds_write false right
    rw [hfault] at hadds
    rw [write]
    exact (hleft false).bind (lays_minus (hright false) hadds)
  | _ =>
    rw [write_operator (by decide) (by decide)]
    exact (hleft false).bind ((hright false).put_bind (continues_symbol _))

theorem laysTree_unary {operand : Expr} (h : LaysTree operand) (hfault : operand.fault? = none)
    (op : UnaryOp) : LaysTree (.unary op operand) := by
  intro bare
  rw [Expr.functions_eq_sum rfl]
  cases op with
  | plus =>
    rw [write]
    exact h false
  | minus =>
    have hadds := adds_write false operand
    rw [hfault] at hadds
    rw [write]
    exact lays_minus (h false) hadds

theorem laysTree_paren {inner : Expr} (h : LaysTree inner) : LaysTree (.paren inner) := by
  intro bare
  rw [Expr.functions_eq_sum rfl, write]
  split
  · exact h false
  · exact ((h false).bind_put (by decide)).put_bind (by decide)

theorem laysTree_declare {name : String} (hname : IsIdentifier name) {value : Expr}
    (h : LaysTree value) : LaysTree (.declare name value) := by
  intro bare
  rw [Expr.functions_eq_sum rfl, write]
  exact (h false).put_bind (continues_let hname)

theorem laysTree_func {params : List String} (hparams : ∀ x ∈ params, IsIdentifier x) {body : Expr}
    (h : LaysTree body) : LaysTree (.func params body) := by
  intro bare
  have hfunctions : (Expr.func params body).functions = body.functions + 1 := by
    rw [Expr.functions_eq, Nat.add_comm]
    rfl
  have hall := lays_func (continues_params hparams) (h false)
  rw [String.append_assoc, show ") => " ++ "\x7b\n" = ") => \x7b\n" from rfl] at hall
  rwa [hfunctions, write]

theorem laysTree_call {callee : Expr} {args : List Expr} (h : LaysTree callee)
    (hargs : ∀ e ∈ args, LaysTree e) : LaysTree (.call callee args) := by
  intro bare
  have hlist := lays_writeArgs fun e he => hargs e he false
  rw [Expr.functions_eq_sum rfl, write]
  exact (h false).bind ((hlist.bind_put (by decide)).put_bind (by decide))

/-- **A phrase goes on with a line**, and adds two for each function in it. -/
theorem laysTree_of_fits {layer : Grammar.Layer} {e : Expr} (h : e.Fits layer) : LaysTree e := by
  induction h with
  | func hparams _ ih => exact laysTree_func hparams ih
  | declare hname _ ih => exact laysTree_declare hname ih
  | sum _ _ hright ihleft ihright =>
    exact laysTree_binary ihleft ihright hright.fault?_eq_none _
  | product _ _ hright ihleft ihright =>
    exact laysTree_binary ihleft ihright hright.fault?_eq_none _
  | sign h ih => exact laysTree_unary ih h.fault?_eq_none _
  | power _ hexponent ihbase ihexponent =>
    exact laysTree_binary ihbase ihexponent hexponent.fault?_eq_none _
  | call _ _ ihcallee ihargs => exact laysTree_call ihcallee ihargs
  | var hname =>
    intro bare
    rw [write]
    exact lays_put (continues_name hname)
  | int hvalue =>
    intro bare
    rw [write]
    exact lays_put (continues_repr hvalue)
  | paren _ ih => exact laysTree_paren ih
  | ofSum _ ih | ofProduct _ ih | ofSigned _ ih | ofPower _ ih | ofApplication _ ih
  | ofPrimary _ ih => exact ih

/-! ### Statements -/

/-- Every statement takes a line, and two more for each function in it. -/
theorem exists_complete_writeStatements {es : List Expr} (h : ∀ e ∈ es, e.Fits .statement)
    {s : Script} {n : ℕ} (hs : Complete s.level n s.out.toList) :
    ∃ text : String, writeStatements es s = .ok () { s with out := text } ∧
      Complete s.level (n + es.length + 2 * (es.map Expr.functions).sum) text.toList := by
  induction es generalizing s n with
  | nil => exact ⟨s.out, by rw [writeStatements]; rfl, hs⟩
  | cons e es ih =>
    obtain ⟨he, hes⟩ := List.forall_mem_cons.mp h
    have hline : Partial s.level n
        (s.out ++ String.ofList (List.replicate (2 * s.level) ' ')).toList := by
      simpa using hs.indent
    obtain ⟨text, hrun, htext⟩ := laysTree_of_fits he false { s with out := _ } n hline
    obtain ⟨text', hrun', htext'⟩ := ih hes (s := { s with out := text ++ ";\n" }) htext.endLine
    refine ⟨text', ?_, ?_⟩
    · rw [writeStatements, bind_of_ok (rfl : indent s = .ok () _), bind_of_ok hrun,
        bind_of_ok (rfl : put ";\n" _ = .ok () _)]
      exact hrun'
    · rw [List.length_cons, List.map_cons, List.sum_cons]
      convert htext' using 1
      omega

/-! ### Leaving out blank lines

The writer of blank lines cuts the text into lines and drops those without anything but blanks. The
text is made up of lines already, and none of them is blank. -/

theorem linesFrom_unbroken {seen line : List Char} (hseen : '\r' ∉ seen) (h : Unbroken line) :
    Text.linesFrom seen (line ++ ['\n']) = [seen.reverse ++ line] := by
  induction line generalizing seen with
  | nil =>
    have hdrop : Text.dropReturn seen = seen := by
      rw [Text.dropReturn.eq_2]
      rintro rest rfl
      exact hseen List.mem_cons_self
    simp [Text.linesFrom, hdrop]
  | cons c line ih =>
    obtain ⟨hfeed, hreturn⟩ := h
    obtain ⟨hc, hfeed⟩ := List.ne_and_not_mem_of_not_mem_cons hfeed
    obtain ⟨hc', hreturn⟩ := List.ne_and_not_mem_of_not_mem_cons hreturn
    have hseen' : '\r' ∉ c :: seen := List.not_mem_cons_of_ne_of_not_mem hc' hseen
    rw [List.cons_append, Text.linesFrom, if_neg hc.symm, ih hseen' ⟨hfeed, hreturn⟩]
    simp

/-- A text of unbroken lines is cut into these lines. -/
theorem lines_ended {lines : List (List Char)} (h : ∀ line ∈ lines, Unbroken line) :
    Text.lines (ended lines) = lines := by
  induction lines with
  | nil => rfl
  | cons line lines ih =>
    obtain ⟨hline, hlines⟩ := List.forall_mem_cons.mp h
    have hcut : ended (line :: lines) = line ++ '\n' :: ended lines := by simp [ended]
    rw [Text.lines] at ih ⊢
    rw [hcut, Text.linesFrom_append, linesFrom_unbroken List.not_mem_nil hline, ih hlines]
    rfl

theorem IsLaidOut.not_all_isBlank {lines : List (List Char)} (h : IsLaidOut lines) :
    ∀ line ∈ lines, ¬ line.all isBlank := by
  intro line hline
  obtain ⟨i, hi⟩ := List.getElem?_of_mem hline
  exact (h.tidy i line hi).not_all_isBlank

/-- Lines that are laid out are all kept. -/
theorem IsLaidOut.withoutBlankLines {lines : List (List Char)} (h : IsLaidOut lines) :
    Text.withoutBlankLines (String.ofList (ended lines)) =
      String.ofList (['\n'].intercalate lines) := by
  have hkept : lines.filter (fun line => !line.all isBlank) = lines := by
    rw [List.filter_eq_self]
    intro line hline
    simpa using h.not_all_isBlank line hline
  rw [Text.withoutBlankLines, String.toList_ofList, lines_ended h.unbroken, hkept,
    ← String.toList_inj, String.toList_intercalate]
  simp

theorem Nests.of_concat {level : ℕ} {cs : List Char} {c : Char} (h : Nests level (cs ++ [c]))
    (hopen : c ≠ '\x7b') (hclose : c ≠ '\x7d') : Nests level cs where
  within pre hpre := h.within pre (hpre.trans (List.prefix_append cs [c]))
  total := by simpa [List.count_singleton, hopen, hclose] using h.total

end Script

/-- **The layout of a script.** The JavaScript of a program has a line for each statement and two
more for each function, and no blank line; so leaving out blank lines has only taken away the last
line feed. Braces are balanced. The `}` of a line, if it has one, is the first character that is not
blank, and the `{` is the last character. Each line is indented by two blanks for each brace that
has been opened and not closed on the lines before, or one brace less if it begins with `}`. -/
theorem Mode.compile_layout {source : String} {es : List Expr} (h : Expr.parse source = .block es)
    (depth : ℕ) : ∃ output : String, run depth compile source = .ok output ∧
      Script.write false (.block es) .empty = .ok () ⟨output ++ "\n", 0⟩ ∧
      (output.toList.splitOn '\n').length = es.length + 2 * (Expr.block es).functions ∧
      Script.Nests 0 output.toList ∧
      ∀ i line, (output.toList.splitOn '\n')[i]? = some line → ¬ line.all isBlank ∧
        Script.IsTidy ((output.toList.splitOn '\n').take i).flatten line := by
  obtain ⟨es', heq, hne, hfits⟩ : (Expr.block es).WellFormed := by
    rw [← h]
    refine Expr.wellFormed_of_parse fun message hmessage => ?_
    cases h.symm.trans hmessage
  obtain rfl := Expr.block.inj heq
  obtain ⟨text, hrun, lines, hlength, htext, hlines, hnests⟩ :=
    Script.exists_complete_writeStatements (s := .empty) hfits Script.complete_nil
  have hfunctions : (Expr.block es).functions = (es.map Expr.functions).sum :=
    Expr.functions_eq_sum rfl
  have hlines_ne : lines ≠ [] := by
    rintro rfl
    have hpos := List.length_pos_iff.mpr hne
    simp at hlength
    omega
  -- the lines of the text are the lines that were written, since none of them has a line feed
  have hsplit : (['\n'].intercalate lines).splitOn '\n' = lines :=
    List.splitOn_intercalate '\n' (fun line hline => (hlines.unbroken line hline).1) hlines_ne
  have hended := Script.ended_eq hlines_ne
  have hout : text = String.ofList (['\n'].intercalate lines) ++ "\n" := by
    rw [← String.toList_inj, htext, hended, String.toList_append, String.toList_ofList]
    rfl
  refine ⟨String.ofList (['\n'].intercalate lines), ?_, ?_, ?_, ?_, ?_⟩
  · have hkept := hlines.withoutBlankLines
    rw [← htext, String.ofList_toList] at hkept
    rw [run, h, Expr.toJavaScript, Script.write, hrun]
    exact congrArg Except.ok hkept
  · rw [Script.write, hrun, hout]
    rfl
  · rw [String.toList_ofList, hsplit, hlength, hfunctions, Nat.zero_add]
  · rw [htext, hended] at hnests
    rw [String.toList_ofList]
    exact hnests.of_concat (by decide) (by decide)
  · rw [String.toList_ofList, hsplit]
    intro i line hline
    exact ⟨(hlines.tidy i line hline).not_all_isBlank, hlines.tidy i line hline⟩

/-- Functions one in the other, as an argument with another argument behind it. -/
theorem Mode.compile_layout_argument :
    let script := "f((a) => \x7b\n  return () => \x7b\n    return a;\n  \x7d;\n\x7d, 2);"
    run 0 compile "f ( ( a ) => ( ) => a , 2 )" = .ok script ∧
      (script.toList.splitOn '\n').length = 1 + 2 * 2 ∧ Script.Nests 0 script.toList ∧
      Script.IsTidy "f((a) => \x7b  return () => \x7b".toList "    return a;".toList := by
  intro script
  have hprimary : ∀ name, IsIdentifier name → Expr.Fits .statement (.var name) := fun name h =>
    .ofSum (.ofProduct (.ofSigned (.ofPower (.ofApplication (.ofPrimary (.var h))))))
  have htwo : Expr.Fits .statement (.int 2) :=
    .ofSum (.ofProduct (.ofSigned (.ofPower (.ofApplication (.ofPrimary (.int (by decide)))))))
  have hfunc : Expr.Fits .statement (.func ["a"] (.func [] (.var "a"))) :=
    .func (by decide) (.func (by decide) (hprimary "a" (by decide)))
  have hcall : Expr.Fits .statement
      (.call (.var "f") [.func ["a"] (.func [] (.var "a")), .int 2]) :=
    .ofSum (.ofProduct (.ofSigned (.ofPower (.ofApplication (.call (.var (by decide))
      (List.forall_mem_cons.mpr ⟨hfunc, List.forall_mem_singleton.mpr htwo⟩))))))
  have hparse := Expr.parse_canonical
    (t := .block [.call (.var "f") [.func ["a"] (.func [] (.var "a")), .int 2]])
    ⟨_, rfl, List.cons_ne_nil _ _, List.forall_mem_singleton.mpr hcall⟩
  rw [show Expr.canonical (.block [.call (.var "f") [.func ["a"] (.func [] (.var "a")), .int 2]]) =
    "f ( ( a ) => ( ) => a , 2 )" by cbv] at hparse
  obtain ⟨output, hrun, -, hlength, hnests, htidy⟩ := compile_layout hparse 0
  have houtput : script = output := by
    simp only [run, hparse] at hrun
    exact Except.ok.inj hrun
  rw [← houtput] at hrun hlength hnests htidy
  have hlines : script.toList.splitOn '\n' = ["f((a) => \x7b", "  return () => \x7b",
      "    return a;", "  \x7d;", "\x7d, 2);"].map String.toList := by decide
  rw [hlines] at htidy
  exact ⟨hrun, hlength, hnests, (htidy 2 _ rfl).2⟩

end ArrowCalc
