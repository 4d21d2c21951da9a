import ArrowCalc.Mode
import ArrowCalc.Proofs.Lexeme.Delimiters
import ArrowCalc.Proofs.Parser.Places
import Mathlib.Logic.Relation

/-!
# Layout

How a program is laid out has no influence on what it means. Blanks may be put between any two
lexemes, and a line break that stands between parentheses may be replaced by a blank. Nothing but
the places of the tokens changes, and with them nothing but the listing of the tokens.

Blanks inside of a lexeme are another matter, and so are line breaks where the parentheses balance,
since there they end a statement.

## Main definitions

* `LayoutStep` — one change of the layout

## Main results

* `LayoutStep.contents_eq` — a change of the layout keeps kinds and payloads
* `Mode.layout_irrelevant` — it keeps everything but places
-/

namespace ArrowCalc

open Lexeme

/-- One change of the layout of a text: blanks are put between two lexemes, or a line break becomes
a blank where the parentheses in front of it do not balance. -/
inductive LayoutStep : List Char → List Char → Prop where
  | insert {text w : List Char} {xs ys : List Lexeme} (hcut : Lexes text (xs ++ ys))
      (hw : w.all isBlank) :
      LayoutStep text (xs.flatMap Lexeme.text ++ w ++ ys.flatMap Lexeme.text)
  | unbreak {u v : List Char} {b : Char} (hb : isBlank b) (hopen : u.count '(' ≠ u.count ')') :
      LayoutStep (u ++ '\n' :: v) (u ++ b :: v)

/-- Blanks between lexemes do not show. -/
theorem Lexeme.solid_cut_insert {text w : List Char} {xs ys : List Lexeme}
    (hcut : Lexes text (xs ++ ys)) (hw : w.all isBlank) :
    solid (cut (xs.flatMap Lexeme.text ++ w ++ ys.flatMap Lexeme.text)) = solid (cut text) := by
  have hpieces : solid (cut text) = solid xs ++ solid ys := by
    rw [← lexes_iff.mp hcut, solid_append]
  cases w with
  | nil => rw [List.append_nil, ← List.flatMap_append, ← hcut.text_eq]
  | cons b w =>
    have hb := ((Bool.and_eq_true _ _).mp hw).1
    rw [List.append_assoc, List.cons_append, solid_cut_append (mem_delimiters_of_isBlank hb),
      ← List.cons_append, solid_cut_blanks hw, ← lexes_iff.mp hcut.left, ← lexes_iff.mp hcut.right,
      hpieces]

/-- Where parentheses are open, a line break gives nothing. -/
theorem contents_lineBreak_of_ne {cur : Cursor} (hcur : cur.depth ≠ 0) (xs : List Lexeme) :
    contents cur (lineBreak :: xs) = contents cur xs := by
  have hdepth : (cur.advance lineBreak).depth = cur.depth := rfl
  rw [contents_cons, if_pos (.inr ⟨rfl, hcur⟩), List.nil_append, contents_congr_depth hdepth]

/-- A change of the layout keeps kinds and payloads. -/
theorem LayoutStep.contents_eq {text text' : List Char} (h : LayoutStep text text') :
    contents .start (cut text) = contents .start (cut text') := by
  rw [← contents_solid, ← contents_solid _ (cut text')]
  cases h with
  | insert hcut hw => rw [solid_cut_insert hcut hw]
  | @unbreak u v b hb hopen =>
    -- both texts fall apart behind `u`, and there the line break gives as little as the blank
    have hdepth : (Cursor.start.advanceAll (solid (cut u))).depth ≠ 0 := by
      rw [Cursor.advanceAll_solid, Cursor.depth_start_advanceAll]
      omega
    rw [solid_cut_append (by decide), solid_cut_append (mem_delimiters_of_isBlank hb),
      solid_cut_cons hb, cut_lineBreak, solid_cons_of_ne (by decide), contents_append,
      contents_append, contents_lineBreak_of_ne hdepth]

/-- So do any number of changes. -/
theorem contents_eq_of_layout {text text' : List Char}
    (h : Relation.ReflTransGen LayoutStep text text') :
    contents .start (cut text) = contents .start (cut text') := by
  induction h with
  | refl => rfl
  | tail _ hstep ih => exact ih.trans hstep.contents_eq

/-- **Layout is irrelevant.** Sources that differ in their layout have the same tokens and marks up
to places, the same tree, and the same output or error in every mode but the listing of tokens. -/
theorem Mode.layout_irrelevant {source source' : String}
    (h : Relation.ReflTransGen LayoutStep source.toList source'.toList) :
    (TokenStream.ofSource source).tokens.map Token.content =
        (TokenStream.ofSource source').tokens.map Token.content ∧
      (TokenStream.ofSource source).marked.tokens.map Token.content =
        (TokenStream.ofSource source').marked.tokens.map Token.content ∧
      Expr.parse source = Expr.parse source' ∧
      ∀ depth mode, mode ≠ lex → run depth mode source = run depth mode source' := by
  have hcontents : (TokenStream.ofSource source).tokens.map Token.content =
      (TokenStream.ofSource source').tokens.map Token.content := by
    rw [TokenStream.map_content_ofSource, TokenStream.map_content_ofSource]
    exact contents_eq_of_layout h
  have hparse := Expr.parse_congr hcontents
  refine ⟨hcontents, TokenStream.marked_congr hcontents, hparse, fun depth mode hmode => ?_⟩
  cases mode with
  | lex => exact absurd rfl hmode
  | eval => rw [run, run, hparse]
  | compile => rw [run, run, hparse]
  | ast => rw [run, run, hparse]

/-- A function literal, with a blank behind its parenthesis and without its line break. -/
theorem Mode.layout_irrelevant_literal :
    Relation.ReflTransGen LayoutStep "(x,\ny)=>x".toList "( x, y)=>x".toList ∧
      Expr.parse "(x,\ny)=>x" = Expr.parse "( x, y)=>x" ∧
      compile ≠ lex ∧ run 9 compile "(x,\ny)=>x" = run 9 compile "( x, y)=>x" := by
  have hbreak : LayoutStep "(x,\ny)=>x".toList "(x, y)=>x".toList :=
    .unbreak (u := "(x,".toList) (v := "y)=>x".toList) (by decide) (by decide)
  have hcut : Lexes "(x, y)=>x".toList ([lparen] ++ cut "x, y)=>x".toList) := by
    have hscan : scan '(' "x, y)=>x".toList = (.token .lparen, 0) := by decide
    rw [lexes_iff, show "(x, y)=>x".toList = '(' :: "x, y)=>x".toList from rfl, cut_cons, hscan]
    rfl
  have hblank : LayoutStep "(x, y)=>x".toList "( x, y)=>x".toList := by
    have hstep := LayoutStep.insert (w := [' ']) hcut (by decide)
    rwa [flatMap_text_cut] at hstep
  have h := Relation.ReflTransGen.single hbreak |>.tail hblank
  obtain ⟨-, -, hparse, hrun⟩ := layout_irrelevant h
  exact ⟨h, hparse, by decide, hrun 9 compile (by decide)⟩

end ArrowCalc
