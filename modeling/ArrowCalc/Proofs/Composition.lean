import ArrowCalc.Proofs.Layout
import ArrowCalc.Proofs.Writers

/-!
# Programs one behind the other

Two programs with a line break between them are one program. Its statements are those of the first
and then those of the second, and its script and its outline are put together from theirs.

The lexemes of the whole are those of the parts. The parentheses of the first program match, so
none is open where the second begins, and its line breaks are tokens there as they are when it
stands alone.

The proof goes through kinds and payloads and not through the tokens themselves. In the whole, the
tokens of the second program are on other lines than they are on alone, but no phrase and no tree
depends on places. Messages do, and this is why the theorem is about programs that have a tree: a
syntax error in the second program is reported at another line.

## Main definitions

* `Lexeme.IsSeparator` — blanks and line breaks, of these at least one
* `Text.withoutFirstLine` — what stands behind the first line of a text

## Main results

* `Grammar.Program.append` — the tokens of two programs
* `contents_separated` — kinds and payloads of the whole
* `Expr.parse_append` — the tree of the whole
* `Expr.toJavaScript_block_append`, `Expr.outline_block_append` — script and outline of two blocks
* `Mode.programs_compose` — two programs are one program
-/

namespace ArrowCalc

open Grammar Lexeme

/-! ### Tokens

The grammar allows any number of line breaks behind a program, and asks for at least one between two
statements. -/

namespace Grammar

variable {d : Dialect} {ts us breaks : List Token} {es fs : List Expr}

theorem LineBreaks.append {breaks' : List Token} (h : LineBreaks breaks) (h' : LineBreaks breaks') :
    LineBreaks (breaks ++ breaks') := List.forall_mem_append.mpr ⟨h, h'⟩

/-- Line breaks behind a program are part of it. -/
theorem Program.append_breaks (h : Program d ts es) (hbreaks : LineBreaks breaks) :
    Program d (ts ++ breaks) es := by
  induction h with
  | last h hlast =>
    rw [List.append_assoc]
    exact .last h (hlast.append hbreaks)
  | cons h hne hbetween _ ih =>
    rw [List.append_assoc, List.append_assoc]
    exact .cons h hne hbetween ih

/-- Two programs with line breaks between them are a program. -/
theorem Program.append (h : Program d ts es) (hne : breaks ≠ []) (hbreaks : LineBreaks breaks)
    (h' : Program d us fs) : Program d (ts ++ (breaks ++ us)) (es ++ fs) := by
  induction h with
  | last h hlast =>
    rw [List.append_assoc, ← List.append_assoc _ breaks]
    exact .cons h (List.append_ne_nil_of_right_ne_nil _ hne) (hlast.append hbreaks) h'
  | cons h hne' hbetween _ ih =>
    rw [List.append_assoc, List.append_assoc, List.cons_append]
    exact .cons h hne' hbetween ih

theorem LineBreaks.isSpelled (h : LineBreaks breaks) : ∀ t ∈ breaks, t.kind.IsSpelled := by
  intro t ht
  rw [h t ht]
  decide

theorem LineBreaks.balanced (h : LineBreaks breaks) : Balanced breaks := by
  induction breaks with
  | nil => exact .nil
  | cons t breaks ih =>
    obtain ⟨ht, hbreaks⟩ := List.forall_mem_cons.mp h
    exact .cons ht (by decide) (ih hbreaks)

/-- The parentheses of a program match. -/
theorem Program.balanced (h : Program d ts es) : Balanced ts := by
  induction h with
  | last h hbreaks => exact h.balanced.append hbreaks.balanced
  | cons h _ hbreaks _ ih => exact h.balanced.append (hbreaks.balanced.append ih)

/-- Matching parentheses leave none open. -/
theorem Balanced.sum_nesting (h : Balanced ts) : (ts.map fun t => t.kind.nesting).sum = 0 := by
  induction h with
  | nil => rfl
  | token hopen hclose _ =>
    rw [List.map_singleton, List.sum_singleton]
    exact TokenKind.nesting_eq_zero hopen hclose
  | append _ _ ihts ihus => rw [List.map_append, List.sum_append, ihts, ihus, Int.add_zero]
  | nested hopen _ hclose ih =>
    rw [List.map_cons, List.map_append, List.map_singleton, List.sum_cons, List.sum_append,
      List.sum_singleton, ih, hopen, hclose]
    rfl

end Grammar

/-! ### Lexemes

A separator begins with a blank or a line break, and both are delimiters. So the text in front of it
is cut into the lexemes that it has alone. -/

namespace Lexeme

/-- A text of blanks and line breaks, of these at least one. -/
def IsSeparator (w : List Char) : Prop := (w.all fun c => isBlank c ∨ c = '\n') ∧ '\n' ∈ w

theorem IsSeparator.forall_mem {w : List Char} (h : IsSeparator w) :
    ∀ c ∈ w, isBlank c ∨ c = '\n' := fun c hc => of_decide_eq_true (List.all_eq_true.mp h.1 c hc)

theorem mem_delimiters_of_separates {c : Char} (h : isBlank c ∨ c = '\n') : c ∈ delimiters := by
  rcases h with h | rfl
  · exact mem_delimiters_of_isBlank h
  · decide

/-- The line breaks are all that shows of blanks and line breaks. -/
theorem solid_cut_separator {w : List Char} (hw : ∀ c ∈ w, isBlank c ∨ c = '\n')
    (t : List Char) :
    solid (cut (w ++ t)) = List.replicate (w.count '\n') lineBreak ++ solid (cut t) := by
  induction w with
  | nil => rfl
  | cons c w ih =>
    obtain ⟨hc, hrest⟩ := List.forall_mem_cons.mp hw
    rw [List.cons_append]
    rcases hc with hc | rfl
    · have hne : c ≠ '\n' := by
        rintro rfl
        cases hc
      rw [solid_cut_cons hc, ih hrest, List.count_cons_of_ne hne]
    · rw [cut_lineBreak, solid_cons_of_ne (by decide), ih hrest, List.count_cons_self,
        List.replicate_succ, List.cons_append]

/-- The tokens open and close the parentheses that their lexemes do. -/
theorem Yields.sum_nesting {depth : ℤ} {xs : List Lexeme} {ts : List (TokenKind × Option Payload)}
    (h : Yields depth xs ts) : (xs.map nesting).sum = (ts.map fun t => t.1.nesting).sum := by
  induction h with
  | nil => rfl
  | blank _ ih | enclosed _ _ ih => exact (Int.zero_add _).trans ih
  | token _ hx _ ih =>
    rw [List.map_cons, List.sum_cons, List.map_cons, List.sum_cons, ih, hx.nesting_eq]

end Lexeme

/-- Behind a program no parenthesis is open. -/
theorem Cursor.depth_of_program {source : String} {es : List Expr}
    (h : Program .plain (TokenStream.ofSource source).tokens es) :
    (Cursor.start.advanceAll (cut source.toList)).depth = 0 := by
  have hyields := yields_contents (lexes_iff.mpr rfl : Lexes source.toList _).isGenuine .start
  rw [depth_advanceAll, hyields.sum_nesting, ← TokenStream.map_content_ofSource, List.map_map]
  show 0 + ((TokenStream.ofSource source).tokens.map fun t => t.kind.nesting).sum = 0
  rw [h.balanced.sum_nesting, Int.add_zero]

/-- Where no parenthesis is open, every line break is a token. -/
theorem contents_lineBreaks {cur : Cursor} (hcur : cur.depth = 0) (n : ℕ) (xs : List Lexeme) :
    contents cur (List.replicate n lineBreak ++ xs) =
      List.replicate n lineBreak.content ++ contents cur xs := by
  induction n with
  | zero => rfl
  | succ n ih =>
    have hdepth : (cur.advance lineBreak).depth = cur.depth := rfl
    rw [List.replicate_succ, List.cons_append, contents_lineBreak hcur,
      contents_congr_depth hdepth, ih, List.replicate_succ, List.cons_append]

/-- Behind a text that leaves no parenthesis open, a text with a separator in front gives what it
gives alone. -/
theorem contents_separated {u w : List Char} (hw : IsSeparator w)
    (hu : (Cursor.start.advanceAll (cut u)).depth = 0) (t : List Char) :
    contents .start (cut (u ++ w ++ t)) = contents .start (cut u) ++
      (List.replicate (w.count '\n') lineBreak.content ++ contents .start (cut t)) := by
  have hsolid : solid (cut (u ++ w ++ t)) =
      solid (cut u) ++ (List.replicate (w.count '\n') lineBreak ++ solid (cut t)) := by
    rw [← solid_cut_separator hw.forall_mem, List.append_assoc]
    cases w with
    | nil => cases hw.2
    | cons c w =>
      -- whichever it begins with, no lexeme reaches from the first text into the separator
      have hc := hw.forall_mem c List.mem_cons_self
      exact solid_cut_append (mem_delimiters_of_separates hc) u _
  have hdepth : (Cursor.start.advanceAll (solid (cut u))).depth = Cursor.start.depth := by
    rw [Cursor.advanceAll_solid, hu]
    rfl
  rw [← contents_solid, hsolid, contents_append, contents_congr_depth hdepth,
    contents_lineBreaks rfl, contents_solid, contents_solid]

/-! ### Trees

The tokens of a source are replaced by tokens without places, which are easy to append. -/

/-- A source is read as a program whose tokens have its kinds and payloads. -/
theorem Expr.parse_eq_block_of_program {source : String} {ts : List Token} {es : List Expr}
    (h : Program .plain ts es) (hts : ∀ t ∈ ts, t.kind.IsSpelled)
    (hcontents : (TokenStream.ofSource source).tokens.map Token.content = ts.map Token.content) :
    Expr.parse source = .block es := by
  have hparse : Expr.parse source = (TokenStream.marked ⟨ts, .nowhere⟩).readProgram.1 :=
    TokenStream.readProgram_congr (TokenStream.marked_congr hcontents)
  rw [hparse, TokenStream.readProgram_eq_block_iff,
    TokenStream.beforeEof_marked fun t ht => (hts t ht).2,
    Surface.program_marked_iff _ fun t ht => (hts t ht).1]
  exact h

/-- The line breaks of a separator as tokens, at no place. -/
def breaksOf (w : String) : List Token :=
  List.replicate (w.toList.count '\n') ⟨.newline, none, .nowhere⟩

theorem lineBreaks_breaksOf (w : String) : LineBreaks (breaksOf w) := by
  intro t ht
  rw [List.eq_of_mem_replicate ht]

theorem map_content_breaksOf (w : String) :
    (breaksOf w).map Token.content =
      List.replicate (w.toList.count '\n') lineBreak.content := List.map_replicate

theorem breaksOf_ne_nil {w : String} (hw : IsSeparator w.toList) : breaksOf w ≠ [] := by
  rw [breaksOf, ne_eq, List.replicate_eq_nil_iff]
  exact (List.count_pos_iff.mpr hw.2).ne'

namespace Expr

variable {source source' w : String} {es fs : List Expr}

/-- A separator behind a program changes nothing. -/
theorem parse_append_separator (h : Expr.parse source = .block es)
    (hw : IsSeparator w.toList) : Expr.parse (source ++ w) = .block es := by
  have hprogram := (parse_eq_block_iff source es).mp h
  refine parse_eq_block_of_program (hprogram.append_breaks (lineBreaks_breaksOf w)) ?_ ?_
  · exact List.forall_mem_append.mpr
      ⟨fun t ht => TokenStream.isSpelled_of_mem_ofSource ht, (lineBreaks_breaksOf w).isSpelled⟩
  · have hcontents := contents_separated hw (Cursor.depth_of_program hprogram) []
    have hnone : contents .start (cut []) = [] := by
      rw [cut]
      rfl
    rw [List.append_nil, hnone, List.append_nil] at hcontents
    rw [List.map_append, map_content_breaksOf, TokenStream.map_content_ofSource,
      TokenStream.map_content_ofSource, String.toList_append, hcontents]

/-- Two programs with a separator between them are one program. -/
theorem parse_append (h : Expr.parse source = .block es) (hw : IsSeparator w.toList)
    (h' : Expr.parse source' = .block fs) :
    Expr.parse (source ++ w ++ source') = .block (es ++ fs) := by
  have hprogram := (parse_eq_block_iff source es).mp h
  have hprogram' := (parse_eq_block_iff source' fs).mp h'
  have hspelled : ∀ {s : String}, ∀ t ∈ (TokenStream.ofSource s).tokens, t.kind.IsSpelled :=
    fun t ht => TokenStream.isSpelled_of_mem_ofSource ht
  refine parse_eq_block_of_program
    (hprogram.append (breaksOf_ne_nil hw) (lineBreaks_breaksOf w) hprogram') ?_ ?_
  · exact List.forall_mem_append.mpr
      ⟨hspelled, List.forall_mem_append.mpr ⟨(lineBreaks_breaksOf w).isSpelled, hspelled⟩⟩
  · rw [List.map_append, List.map_append, map_content_breaksOf, TokenStream.map_content_ofSource,
      TokenStream.map_content_ofSource, TokenStream.map_content_ofSource, String.toList_append,
      String.toList_append, contents_separated hw (Cursor.depth_of_program hprogram)]

end Expr

/-! ### Lines

Blank lines are taken out of a script when all of it is written. Behind a line feed this can be done
for what stands in front and for what follows separately. -/

namespace Text

/-- A line feed cuts the text: what stands before it has no part in the lines behind it. -/
theorem linesFrom_append (seen cs rest : List Char) :
    linesFrom seen (cs ++ '\n' :: rest) = linesFrom seen (cs ++ ['\n']) ++ linesFrom [] rest := by
  induction cs generalizing seen with
  | nil => rfl
  | cons c cs ih =>
    rw [List.cons_append, List.cons_append, linesFrom, linesFrom]
    split
    · rw [ih, List.cons_append]
    · exact ih _

/-- A text that ends in a semicolon and a line feed has a line with the semicolon. -/
theorem exists_mem_linesFrom (seen cs : List Char) :
    ∃ line ∈ linesFrom seen (cs ++ [';', '\n']), ';' ∈ line := by
  induction cs generalizing seen with
  | nil => exact ⟨(';' :: seen).reverse, List.mem_cons_self, by simp⟩
  | cons c cs ih =>
    rw [List.cons_append, linesFrom]
    split
    · obtain ⟨line, hline, hmem⟩ := ih []
      exact ⟨line, List.mem_cons_of_mem _ hline, hmem⟩
    · exact ih _

/-- The lines of a text that are not blank. -/
def keptLines (text : String) : List String :=
  ((lines text.toList).filter fun line => !line.all isBlank).map String.ofList

theorem withoutBlankLines_eq (text : String) :
    withoutBlankLines text = "\n".intercalate (keptLines text) := rfl

/-- A text that ends its line keeps its lines whatever follows. -/
theorem keptLines_append (text text' : String) :
    keptLines (text ++ ";\n" ++ text') = keptLines (text ++ ";\n") ++ keptLines text' := by
  have hcut : (text ++ ";\n" ++ text').toList =
      (text.toList ++ [';']) ++ '\n' :: text'.toList := by
    simp
  have hhead : (text ++ ";\n").toList = (text.toList ++ [';']) ++ ['\n'] := by simp
  simp only [keptLines, lines, hcut, hhead]
  rw [linesFrom_append, List.filter_append, List.map_append]

/-- A line with a semicolon is not blank. -/
theorem keptLines_ne_nil (text : String) : keptLines (text ++ ";\n") ≠ [] := by
  obtain ⟨line, hline, hmem⟩ := exists_mem_linesFrom [] text.toList
  have hkept : (!line.all isBlank) = true := by
    rw [Bool.not_eq_true', List.all_eq_false]
    exact ⟨';', hmem, by decide⟩
  have htext : line ∈ lines (text ++ ";\n").toList := by
    rw [String.toList_append]
    exact hline
  exact List.ne_nil_of_mem (List.mem_map_of_mem (List.mem_filter.mpr ⟨htext, hkept⟩))

theorem withoutBlankLines_append (text text' : String) :
    withoutBlankLines (text ++ ";\n" ++ (text' ++ ";\n")) =
      withoutBlankLines (text ++ ";\n") ++ "\n" ++ withoutBlankLines (text' ++ ";\n") := by
  simp only [withoutBlankLines_eq, keptLines_append]
  exact String.intercalate_append_of_ne_nil (keptLines_ne_nil text) (keptLines_ne_nil text')

/-- What stands behind the first line feed of a text. -/
def withoutFirstLine (text : String) : String :=
  String.ofList ((text.toList.dropWhile (· ≠ '\n')).drop 1)

theorem withoutFirstLine_append {line : String} (h : '\n' ∉ line.toList) (text : String) :
    withoutFirstLine (line ++ "\n" ++ text) = text := by
  have hline : ∀ c ∈ line.toList, decide (c ≠ '\n') = true := by
    intro c hc
    rw [decide_eq_true_eq]
    rintro rfl
    exact h hc
  rw [withoutFirstLine, String.toList_append, String.toList_append, List.append_assoc,
    List.dropWhile_append_of_pos hline]
  exact String.ofList_toList

end Text

/-! ### Blocks

The writers go through the statements of a block one by one, and each of them adds a text that does
not depend on what was written before. -/

namespace Expr

variable {es fs : List Expr}

theorem toJavaScript_block {text : String}
    (h : Script.writeStatements es .empty = .ok () ⟨"" ++ text, 0⟩) :
    toJavaScript (.block es) = .ok (Text.withoutBlankLines text) := by
  rw [toJavaScript, Script.write, h, String.empty_append]
  rfl

/-- The script of two blocks in one is the script of the first, a line feed and the script of the
second. -/
theorem toJavaScript_block_append (hes : es ≠ []) (hfs : fs ≠ []) (he : faultOfEach? es = none)
    (hf : faultOfEach? fs = none) :
    ∃ text text', toJavaScript (.block es) = .ok text ∧ toJavaScript (.block fs) = .ok text' ∧
      toJavaScript (.block (es ++ fs)) = .ok (text ++ "\n" ++ text') := by
  obtain ⟨piece, hrun⟩ := Script.exists_run_writeStatements hes he
  obtain ⟨piece', hrun'⟩ := Script.exists_run_writeStatements hfs hf
  refine ⟨_, _, toJavaScript_block (hrun .empty), toJavaScript_block (hrun' .empty), ?_⟩
  rw [← Text.withoutBlankLines_append]
  refine toJavaScript_block ?_
  rw [Script.writeStatements_append, bind_of_ok (hrun .empty), hrun', String.append_assoc]
  rfl

theorem outline_block {added : List String} (hne : added ≠ [])
    (h : Outline.writeAll es ⟨#["ExpList"], 1⟩ = .ok () ⟨#["ExpList"] ++ added.toArray, 1⟩) :
    outline (.block es) = .ok ("ExpList" ++ "\n" ++ "\n".intercalate added) := by
  have hrun : Outline.write (.block es) .empty =
      .ok () ⟨#["ExpList"] ++ added.toArray, 0⟩ := by
    rw [Outline.write]
    show Outline.nested (Outline.writeAll es) ⟨#["ExpList"], 0⟩ = _
    rw [Outline.nested, h]
    rfl
  have hlines : (#["ExpList"] ++ added.toArray).toList = ["ExpList"] ++ added :=
    Array.toList_append
  rw [outline, hrun]
  show Except.ok (Outline.text _) = _
  rw [Outline.text, hlines, String.intercalate_append_of_ne_nil (List.cons_ne_nil _ _) hne]
  rfl

/-- The outline of two blocks in one has the lines of both blocks below one first line. -/
theorem outline_block_append (hes : es ≠ []) (hfs : fs ≠ []) (he : faultOfEach? es = none)
    (hf : faultOfEach? fs = none) :
    ∃ text text', outline (.block es) = .ok text ∧ outline (.block fs) = .ok text' ∧
      outline (.block (es ++ fs)) = .ok (text ++ "\n" ++ Text.withoutFirstLine text') := by
  obtain ⟨added, hadded, hrun⟩ := Outline.exists_run_writeAll hes he
  obtain ⟨added', hadded', hrun'⟩ := Outline.exists_run_writeAll hfs hf
  have hboth : Outline.writeAll (es ++ fs) ⟨#["ExpList"], 1⟩ =
      .ok () ⟨#["ExpList"] ++ (added 1 ++ added' 1).toArray, 1⟩ := by
    rw [Outline.writeAll_append, bind_of_ok (hrun _), hrun', ← List.append_toArray,
      ← Array.append_assoc]
  refine ⟨_, _, outline_block (hadded 1) (hrun _), outline_block (hadded' 1) (hrun' _), ?_⟩
  rw [outline_block (List.append_ne_nil_of_left_ne_nil (hadded 1) _) hboth,
    Text.withoutFirstLine_append (by decide),
    String.intercalate_append_of_ne_nil (hadded 1) (hadded' 1)]
  simp only [String.append_assoc]

/-- The statements of a source have no malformed node, and there is at least one. -/
theorem faultOfEach?_of_parse {source : String} (h : Expr.parse source = .block es) :
    es ≠ [] ∧ faultOfEach? es = none := by
  obtain ⟨hne, hfits⟩ := ((parse_eq_block_iff source es).mp h).fits
    fun t ht => TokenStream.hasSpelling_of_mem_ofSource ht
  exact ⟨hne, faultOfEach?_eq_none_iff.mpr fun e he => (hfits e he).fault?_eq_none⟩

end Expr

/-- **Programs compose.** Two programs with blanks and a line break between them are one program,
with the statements of both. It is written as the script of the first, a line feed and the script
of the second, and its outline is that of the first, a line feed and that of the second without
its first line. -/
theorem Mode.programs_compose {source source' w : String} {es fs : List Expr}
    (h : Expr.parse source = .block es) (h' : Expr.parse source' = .block fs)
    (hw : IsSeparator w.toList) :
    Expr.parse (source ++ w ++ source') = .block (es ++ fs) ∧
      Expr.parse (source ++ w) = .block es ∧
      ∀ depth, ∃ script script' outline outline',
        run depth compile source = .ok script ∧ run depth compile source' = .ok script' ∧
        run depth compile (source ++ w ++ source') = .ok (script ++ "\n" ++ script') ∧
        run depth ast source = .ok outline ∧ run depth ast source' = .ok outline' ∧
        run depth ast (source ++ w ++ source') =
          .ok (outline ++ "\n" ++ Text.withoutFirstLine outline') := by
  have hboth := Expr.parse_append h hw h'
  refine ⟨hboth, Expr.parse_append_separator h hw, fun depth => ?_⟩
  obtain ⟨hne, hfault⟩ := Expr.faultOfEach?_of_parse h
  obtain ⟨hne', hfault'⟩ := Expr.faultOfEach?_of_parse h'
  obtain ⟨script, script', hscripts⟩ := Expr.toJavaScript_block_append hne hne' hfault hfault'
  obtain ⟨outline, outline', houtlines⟩ := Expr.outline_block_append hne hne' hfault hfault'
  simp only [run, h, h', hboth]
  exact ⟨script, script', outline, outline', hscripts.1, hscripts.2.1, hscripts.2.2, houtlines⟩

/-- A declaration, and a use of it some lines below. -/
theorem Mode.programs_compose_declaration :
    Expr.parse "let x = 1" = .block [.declare "x" (.int 1)] ∧
      Expr.parse "- x" = .block [.unary .minus (.var "x")] ∧ IsSeparator " \n\t\n".toList ∧
      Expr.parse ("let x = 1" ++ " \n\t\n" ++ "- x") =
        .block [.declare "x" (.int 1), .unary .minus (.var "x")] ∧
      run 0 compile ("let x = 1" ++ " \n\t\n" ++ "- x") = .ok "let x = 1;\n-x;" ∧
      run 0 ast ("let x = 1" ++ " \n\t\n" ++ "- x") =
        .ok "ExpList\n VarDecl x\n  IntLit 1\n UnOp -\n  VarId x" := by
  have hint : Expr.Fits .statement (.int 1) :=
    .ofSum (.ofProduct (.ofSigned (.ofPower (.ofApplication (.ofPrimary (.int (by decide)))))))
  have hvar : Expr.Fits .signed (.var "x") :=
    .ofPower (.ofApplication (.ofPrimary (.var (by decide))))
  have hparse : Expr.parse "let x = 1" = .block [.declare "x" (.int 1)] := by
    have hread := Expr.parse_canonical (t := .block [.declare "x" (.int 1)])
      ⟨_, rfl, List.cons_ne_nil _ _, List.forall_mem_singleton.mpr (.declare (by decide) hint)⟩
    rwa [show Expr.canonical (.block [.declare "x" (.int 1)]) = "let x = 1" by cbv] at hread
  have hparse' : Expr.parse "- x" = .block [.unary .minus (.var "x")] := by
    have hread := Expr.parse_canonical (t := .block [.unary .minus (.var "x")])
      ⟨_, rfl, List.cons_ne_nil _ _,
        List.forall_mem_singleton.mpr (.ofSum (.ofProduct (.ofSigned (.sign hvar))))⟩
    rwa [show Expr.canonical (.block [.unary .minus (.var "x")]) = "- x" by cbv] at hread
  have hw : IsSeparator " \n\t\n".toList := ⟨by decide, by decide⟩
  obtain ⟨hboth, -, hrun⟩ := programs_compose hparse hparse' hw
  obtain ⟨script, script', outline, outline', hscript, hscript', hscripts, houtline, houtline',
    houtlines⟩ := hrun 0
  simp only [run, hparse, hparse'] at hscript hscript' houtline houtline'
  obtain rfl : "let x = 1;" = script := Except.ok.inj hscript
  obtain rfl : "-x;" = script' := Except.ok.inj hscript'
  obtain rfl : "ExpList\n VarDecl x\n  IntLit 1" = outline := Except.ok.inj houtline
  obtain rfl : "ExpList\n UnOp -\n  VarId x" = outline' := Except.ok.inj houtline'
  exact ⟨hparse, hparse', hw, hboth, hscripts, houtlines⟩

end ArrowCalc
