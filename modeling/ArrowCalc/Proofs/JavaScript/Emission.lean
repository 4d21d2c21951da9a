import ArrowCalc.Expr.JavaScript
import ArrowCalc.Proofs.Canonical
import ArrowCalc.Proofs.JavaScript.Reading
import ArrowCalc.Proofs.Normalization

/-!
# The written JavaScript is read back

The JavaScript of a program has one reading, and this is the normal form of the program.

The text is written piece by piece, without looking at the precedence of operators. Two things could
go wrong with that, and each is answered by a property of the pieces.

## Pieces that run together

A text is cut into the longest tokens that fit, so that what a piece means can depend on the piece
behind it: a name followed by a name is one longer name, and two minus signs are a decrement. The
writer knows about the second case only (`afterMinus`). That there is no other case is shown by what
each piece begins with. An expression begins with a word, a numeral, a parenthesis or a minus sign,
and of these only the minus sign makes a longer punctuator of what stands in front of it, when that
is a minus sign too.

`Cuts piece Start Next ws` keeps track of this. It says what the piece needs of the text behind it
(`Next`) and what it offers to the text in front of it (`Start`), and two pieces can be put together
when the second offers what the first needs (`Cuts.append`). The proofs about larger pieces are then
chains of such steps, and in each of them the last argument is the place where the two meet.

## Grouping

That the text is grouped as the tree is lies in the layers of the tree, which are those of the
JavaScript grammar, once unary plus is left out and powers are calls (`phraseOf`). A power becomes a
call with its operands between parentheses and a comma, where expressions of any layer can stand.
This is why the operands of a power may lose their parentheses and nothing else may.

## From pieces to writers

The writer works on a text that exists already, at some level of indentation. `Emits` says that it
adds a piece with the given cut whatever was written before, and `Writes` that the tokens of this
piece are a phrase with the given tree. The indentation is blank and has no tokens, and so the level
does not appear in either.

## Main definitions

* `JavaScript.Cuts` — how a piece of text is cut into tokens, depending on the text behind it
* `JavaScript.Emits` — what a writer puts down, and its tokens
* `JavaScript.Writes` — what a writer puts down is a phrase with the tree

## Main results

* `JavaScript.writesAs_of_fits` — the text of a phrase is a phrase with the normal form of its tree
* `Expr.isReading_toJavaScript_iff` — the one reading of the text of a program
-/

namespace ArrowCalc

namespace JavaScript

open Script

/-! ### Pieces of text

The conditions `Start` and `Next` are predicates on texts, so that one notion serves for words,
which end in front of certain characters, and for punctuators, which end where no longer one goes
on. -/

/-- In front of a text with `Next`, the piece is cut into the tokens `ws`, and the text from the
piece on has `Start`. The tokens of the text behind are not touched: a piece never takes part of
them, and never gives part of its own away. -/
def Cuts (piece : List Char) (Start Next : List Char → Prop) (ws : List String) : Prop :=
  ∀ rest us, Next rest → Tokens rest us →
    Start (piece ++ rest) ∧ Tokens (piece ++ rest) (ws ++ us)

/-- Nothing is asked of the text. -/
def Anything (_ : List Char) : Prop := True

/-- The text begins with the character. -/
def BeginsWith (c : Char) (cs : List Char) : Prop := cs.head? = some c

/-- The text begins as an expression does. -/
def BeginsPhrase (cs : List Char) : Prop :=
  ∃ c, cs.head? = some c ∧ (isWordChar c ∨ c = '(' ∨ c = '-')

section Cuts

variable {piece piece' : List Char} {Start Next Start' Next' : List Char → Prop}
  {ws ws' : List String}

theorem Cuts.mono (h : Cuts piece Start Next ws) (hstart : ∀ cs, Start cs → Start' cs)
    (hnext : ∀ cs, Next' cs → Next cs) : Cuts piece Start' Next' ws := by
  intro rest us hrest hus
  obtain ⟨hstarts, htokens⟩ := h rest us (hnext rest hrest) hus
  exact ⟨hstart _ hstarts, htokens⟩

/-- Two pieces in a row, where the second begins with what the first needs behind it. -/
theorem Cuts.append (h : Cuts piece Start Next ws) (h' : Cuts piece' Start' Next' ws')
    (hnext : ∀ cs, Start' cs → Next cs) : Cuts (piece ++ piece') Start Next' (ws ++ ws') := by
  intro rest us hrest hus
  obtain ⟨hstart', htokens'⟩ := h' rest us hrest hus
  rw [List.append_assoc, List.append_assoc]
  exact h _ _ (hnext _ hstart') htokens'

end Cuts

theorem cuts_blank {cs : List Char} (h : cs.all Text.isBlank) : Cuts cs Anything Anything [] := by
  intro rest us _ hus
  refine ⟨trivial, ?_⟩
  induction cs with
  | nil => exact hus
  | cons c cs ih =>
    rw [List.all_cons, Bool.and_eq_true] at h
    exact .blank h.1 (ih h.2)

/-- A single token, which needs nothing behind it but to be the longest one there. -/
theorem cuts_longest {w : String} {c : Char} (hw : w.toList.head? = some c)
    {Next : List Char → Prop} (h : ∀ rest, Next rest → Longest w rest) :
    Cuts w.toList (BeginsWith c) Next [w] := by
  intro rest us hrest hus
  refine ⟨?_, .token (h rest hrest) hus⟩
  rw [BeginsWith, List.head?_append, hw]
  rfl

/-- A token ends in front of a blank. With the blank as part of the piece nothing is needed behind
it, and this is how most of the fixed pieces are written. -/
theorem cuts_token_blank {w : String} {c d : Char} (hw : w.toList.head? = some c)
    (htoken : IsToken w.toList) (hd : Text.isBlank d) :
    Cuts (w.toList ++ [d]) (BeginsWith c) Anything [w] := by
  have hblank : Cuts [d] (BeginsWith d) Anything [] := fun rest us _ hus => ⟨rfl, .blank hd hus⟩
  refine (cuts_longest hw ?_).append hblank fun cs hcs => hcs
  intro rest hrest
  obtain ⟨rest, rfl⟩ : ∃ cs, rest = d :: cs := List.head?_eq_some_iff.mp hrest
  exact longest_of_blank htoken hd rest

theorem cuts_punctuator {w : String} {c : Char} (hw : w ∈ punctuators)
    (hc : w.toList.head? = some c) : Cuts w.toList (BeginsWith c) (StopsPunctuator w) [w] :=
  cuts_longest hc fun _ hrest => longest_punctuator hw hrest

/-- A punctuator with which no longer one begins. Parentheses, braces and the comma are of this
kind, and the list of the punctuators decides it. -/
theorem cuts_alone {w : String} {c : Char} (hw : w ∈ punctuators) (hc : w.toList.head? = some c)
    (halone : ∀ p ∈ punctuators, w.toList <+: p.toList → p = w) :
    Cuts w.toList (BeginsWith c) Anything [w] := by
  refine (cuts_punctuator hw hc).mono (fun _ h => h) fun rest _ d _ p hp hbegins => ?_
  rw [halone p hp ((List.prefix_append _ _).trans hbegins)] at hbegins
  have hlength := hbegins.length_le
  rw [List.length_append, List.length_singleton] at hlength
  omega

theorem cuts_word {w : String} {c : Char} (hw : IsToken w.toList) (hc : w.toList.head? = some c)
    (hword : isWordChar c) : Cuts w.toList (BeginsWith c) StopsWord [w] := by
  refine cuts_longest hc fun rest hrest => longest_word hw ?_ hrest
  rw [hc]
  exact hword

/-! ### What stands next to what

There are two needs, to end a word and to end a punctuator. A word ends in front of everything that
is neither a character of a word nor a point. A punctuator ends in front of an expression, with the
exception of one minus sign in front of another. -/

theorem stopsWord_nil : StopsWord [] := by
  intro c hc
  cases hc

theorem BeginsWith.stopsWord {c : Char} {cs : List Char} (h : BeginsWith c cs)
    (hc : ¬ isWordChar c ∧ c ≠ '.') : StopsWord cs := by
  intro d hd
  rw [h] at hd
  rwa [← Option.some.inj hd]

theorem BeginsWith.beginsPhrase {c : Char} {cs : List Char} (h : BeginsWith c cs)
    (hc : isWordChar c ∨ c = '(' ∨ c = '-') : BeginsPhrase cs := ⟨c, h, hc⟩

/-- No punctuator goes on with a character of a word. -/
theorem not_mem_punctuator {c : Char} (hc : isWordChar c) : ∀ p ∈ punctuators, c ∉ p.toList := by
  have htable : ∀ p ∈ punctuators, p.toList.all (! isWordChar ·) := by decide
  intro p hp hmem
  have hnot := List.all_eq_true.mp (htable p hp) c hmem
  rw [hc] at hnot
  cases hnot

/-- An expression does not go on with an operator in front of it, a minus sign apart. The two
hypotheses are about the list of the punctuators and are decided for each operator. -/
theorem BeginsPhrase.stopsPunctuator {w : String} {cs : List Char} (h : BeginsPhrase cs)
    (hopen : ∀ p ∈ punctuators, ¬ w.toList ++ ['('] <+: p.toList)
    (hminus : cs.head? = some '-' → ∀ p ∈ punctuators, ¬ w.toList ++ ['-'] <+: p.toList) :
    StopsPunctuator w cs := by
  obtain ⟨c, hhead, hc⟩ := h
  intro d hd
  rw [hhead] at hd hminus
  obtain rfl := Option.some.inj hd
  rcases hc with hc | rfl | rfl
  · exact fun p hp hbegins => not_mem_punctuator hc p hp (hbegins.subset (by simp))
  · exact hopen
  · exact hminus rfl

/-! ### Writers -/

/-- Whatever was written before, the writer adds a piece that is cut into the tokens `ws`. The
writer does not fail and leaves the level of indentation as it was. The piece may depend on the
level; its tokens do not. -/
def Emits (w : Writer Unit) (Start Next : List Char → Prop) (ws : List String) : Prop :=
  ∀ s, ∃ piece, w s = .ok () { s with out := s.out ++ String.ofList piece } ∧
    Cuts piece Start Next ws

section Emits

variable {w w' : Writer Unit} {Start Next Start' Next' : List Char → Prop} {ws ws' : List String}

theorem Emits.mono (h : Emits w Start Next ws) (hstart : ∀ cs, Start cs → Start' cs)
    (hnext : ∀ cs, Next' cs → Next cs) : Emits w Start' Next' ws := by
  intro s
  obtain ⟨piece, hrun, hcuts⟩ := h s
  exact ⟨piece, hrun, hcuts.mono hstart hnext⟩

/-- Two writers in a row, as for pieces. -/
theorem Emits.bind (h : Emits w Start Next ws) (h' : Emits w' Start' Next' ws')
    (hnext : ∀ cs, Start' cs → Next cs) : Emits (do w; w') Start Next' (ws ++ ws') := by
  intro s
  obtain ⟨piece, hrun, hcuts⟩ := h s
  obtain ⟨piece', hrun', hcuts'⟩ := h' { s with out := s.out ++ String.ofList piece }
  refine ⟨piece ++ piece', ?_, hcuts.append hcuts' hnext⟩
  rw [bind_of_ok hrun, hrun', String.ofList_append, String.append_assoc]

theorem emits_put {text : String} (h : Cuts text.toList Start Next ws) :
    Emits (put text) Start Next ws := by
  intro s
  refine ⟨text.toList, ?_, h⟩
  rw [String.ofList_toList]
  rfl

theorem emits_indent : Emits indent Anything Anything [] := by
  intro s
  refine ⟨List.replicate (2 * s.level) ' ', rfl, cuts_blank (List.all_eq_true.mpr fun c hc => ?_)⟩
  rw [List.eq_of_mem_replicate hc]
  decide

theorem Emits.nested (h : Emits w Start Next ws) : Emits (Script.nested w) Start Next ws := by
  intro s
  obtain ⟨piece, hrun, hcuts⟩ := h { s with level := s.level + 1 }
  refine ⟨piece, ?_, hcuts⟩
  rw [Script.nested, hrun]
  rfl

/-- Behind a minus sign the operand is written on its own first, and a blank is put in front of it
if it begins with a minus sign. -/
theorem afterMinus_of_run {s : Script} {piece : List Char}
    (h : w { s with out := "" } = .ok () { s with out := String.ofList piece }) :
    Script.afterMinus w s = .ok ()
      { s with out := s.out ++
          String.ofList ((if piece.head? = some '-' then [' '] else []) ++ piece) } := by
  rw [Script.afterMinus, h]
  simp only [String.front?_eq, String.toList_ofList]
  split
  · rw [String.ofList_append, String.append_assoc]
  · rw [List.nil_append, String.append_empty]

/-- Behind a minus sign, no minus sign follows at once. This is the one place where the writer looks
at what it has written, and it gives the sign in front the `StopsPunctuator` that it needs. -/
theorem Emits.afterMinus (h : Emits w BeginsPhrase Next ws) (hnext : Next []) :
    Emits (Script.afterMinus w) (StopsPunctuator "-") Next ws := by
  intro s
  obtain ⟨piece, hrun, hcuts⟩ := h { s with out := "" }
  rw [String.empty_append] at hrun
  refine ⟨_, afterMinus_of_run hrun, fun rest us hrest hus => ?_⟩
  obtain ⟨hstart, htokens⟩ := hcuts rest us hrest hus
  split
  · refine ⟨fun c hc => ?_, .blank (by decide) htokens⟩
    obtain rfl := Option.some.inj hc
    decide
  · next hminus =>
    refine ⟨hstart.stopsPunctuator (by decide) fun hhead => absurd ?_ hminus, htokens⟩
    -- the piece is not empty, since it begins as an expression does in front of the end, too
    obtain ⟨c, hc, -⟩ := (hcuts [] [] hnext .nil).1
    rw [List.append_nil] at hc
    rwa [List.head?_append, hc, Option.some_or, ← hc] at hhead

end Emits

theorem emits_pure (Next : List Char → Prop) : Emits (pure ()) Next Next [] := by
  intro s
  refine ⟨[], ?_, fun rest us hrest hus => ⟨hrest, hus⟩⟩
  rw [String.ofList_nil, String.append_empty]
  rfl

/-! ### Fixed pieces

The pieces that do not depend on the tree. Each is cut into its tokens whatever follows, either
because it ends with a blank or because no longer punctuator begins with it. -/

theorem cuts_open : Cuts "(".toList (BeginsWith '(') Anything ["("] :=
  cuts_alone (by decide) (by decide) (by decide)

theorem emits_open : Emits (put "(") (BeginsWith '(') Anything ["("] := emits_put cuts_open

theorem emits_close : Emits (put ")") (BeginsWith ')') Anything [")"] :=
  emits_put (cuts_alone (by decide) (by decide) (by decide))

theorem emits_closeBrace : Emits (put "\x7d") (BeginsWith '\x7d') Anything ["\x7d"] :=
  emits_put (cuts_alone (by decide) (by decide) (by decide))

theorem cuts_comma : Cuts ", ".toList (BeginsWith ',') Anything [","] :=
  cuts_token_blank (w := ",") (d := ' ') (by decide) (isToken_of_mem (by decide)) (by decide)

theorem emits_comma : Emits (put ", ") (BeginsWith ',') Anything [","] := emits_put cuts_comma

theorem emits_end : Emits (put ";\n") (BeginsWith ';') Anything [";"] :=
  emits_put
    (cuts_token_blank (w := ";") (d := '\n') (by decide) (isToken_of_mem (by decide)) (by decide))

theorem emits_return : Emits (put "return ") (BeginsWith 'r') Anything ["return"] :=
  emits_put (cuts_token_blank (w := "return") (d := ' ') (by decide) (.inl (by decide)) (by decide))

theorem emits_mathPow : Emits (put "Math.pow(") (BeginsWith 'M') Anything [mathPow, "("] := by
  have hpow : Cuts mathPow.toList (BeginsWith 'M') StopsWord [mathPow] :=
    cuts_word (.inr (.inr (.inr rfl))) (by decide) (by decide)
  exact emits_put (hpow.append cuts_open fun cs hcs => hcs.stopsWord (by decide))

/-! ### Phrases

One lemma for each way to write an expression, from the writers of its parts to the writer of the
whole. They are about any writers of the parts, so that the recursion of the emitter is left to the
induction at the end. -/

/-- What the writer puts down is a phrase with the tree. Every phrase begins as an expression does
and needs the end of a word behind it. For a phrase that ends with a parenthesis this is more than
it needs, and having one condition for all of them is worth it. -/
def Writes (w : Writer Unit) (p : Phrase) (e : Expr) : Prop :=
  ∃ ws, Emits w BeginsPhrase StopsWord ws ∧ Reads p ws e

section Writes

variable {w w' : Writer Unit} {p : Phrase} {a b e : Expr}

theorem Writes.imp {q : Phrase} (h : Writes w p e) (hpq : ∀ {ts}, Reads p ts e → Reads q ts e) :
    Writes w q e := by
  obtain ⟨ws, hws, hreads⟩ := h
  exact ⟨ws, hws, hpq hreads⟩

theorem writes_paren (h : Writes w .expression e) :
    Writes (do put "("; w; put ")") .primary (.paren e) := by
  obtain ⟨ws, hws, hreads⟩ := h
  refine ⟨_, ?_, .paren hreads⟩
  have hinner := hws.bind emits_close fun cs hcs => hcs.stopsWord (by decide)
  refine (emits_open.bind hinner fun _ _ => trivial).mono ?_ fun _ _ => trivial
  exact fun cs hcs => hcs.beginsPhrase (by decide)

/-- A power is a call of `Math.pow`. Both operands stand between parentheses and commas, which is
why any expressions will do, while `**` would ask for their layers. -/
theorem writes_pow (h : Writes w .expression a) (h' : Writes w' .expression b) :
    Writes (do put "Math.pow("; w; put ", "; w'; put ")") .primary (.binary .pow a b) := by
  obtain ⟨ws, hws, hreads⟩ := h
  obtain ⟨ws', hws', hreads'⟩ := h'
  refine ⟨_, ?_, .pow hreads hreads'⟩
  have hsecond := hws'.bind emits_close fun cs hcs => hcs.stopsWord (by decide)
  have hfirst := hws.bind (emits_comma.bind hsecond fun _ _ => trivial) fun cs hcs =>
    hcs.stopsWord (by decide)
  refine (emits_mathPow.bind hfirst fun _ _ => trivial).mono ?_ fun _ _ => trivial
  exact fun cs hcs => hcs.beginsPhrase (by decide)

theorem emits_minus : Emits (put "-") (BeginsWith '-') (StopsPunctuator "-") ["-"] :=
  emits_put (cuts_punctuator (by decide) (by decide))

theorem writes_minus (h : Writes w .signed e) :
    Writes (do put "-"; afterMinus w) .signed (.unary .minus e) := by
  obtain ⟨ws, hws, hreads⟩ := h
  refine ⟨_, ?_, .minus hreads⟩
  refine (emits_minus.bind (hws.afterMinus stopsWord_nil) fun _ h => h).mono ?_ fun _ h => h
  exact fun cs hcs => hcs.beginsPhrase (by decide)

/-- A difference, whose minus sign takes the same care of its operand as the sign does. -/
theorem writes_sub (h : Writes w (.chain .sum) a) (h' : Writes w' (.chain .product) b) :
    Writes (do w; put "-"; afterMinus w') (.chain .sum) (.binary .sub a b) := by
  obtain ⟨ws, hws, hreads⟩ := h
  obtain ⟨ws', hws', hreads'⟩ := h'
  refine ⟨ws ++ "-" :: ws', ?_, hreads.snoc (by decide) hreads'⟩
  have hright := emits_minus.bind (hws'.afterMinus stopsWord_nil) fun _ h => h
  exact hws.bind hright fun cs hcs => hcs.stopsWord (by decide)

/-- The operators other than the minus sign need an expression behind them and nothing more: neither
`(` nor `-` makes a longer punctuator of `+`, `*` or `/`. -/
theorem emits_symbol {op : BinaryOp} (hop : op ∈ [BinaryOp.add, .mul, .div]) :
    Emits (put op.symbol) StopsWord BeginsPhrase [op.symbol] := by
  have htable : ∀ op ∈ [BinaryOp.add, .mul, .div], op.symbol ∈ punctuators ∧
      op.symbol.toList.head?.any (fun c => ¬ isWordChar c ∧ c ≠ '.') ∧
      (∀ p ∈ punctuators, ¬ op.symbol.toList ++ ['('] <+: p.toList) ∧
      ∀ p ∈ punctuators, ¬ op.symbol.toList ++ ['-'] <+: p.toList := by decide
  obtain ⟨hmem, hany, hopen, hminus⟩ := htable op hop
  obtain ⟨c, hhead, hc⟩ := (Option.any_eq_true _ _).mp hany
  refine (emits_put (cuts_punctuator hmem hhead)).mono (fun cs hcs => hcs.stopsWord ?_)
    fun cs hcs => hcs.stopsPunctuator hopen fun _ => hminus
  exact of_decide_eq_true hc

theorem writes_operator {level : Level} {op : BinaryOp} (hop : op ∈ [BinaryOp.add, .mul, .div])
    (hlevel : (op.symbol, op) ∈ level.operators) (h : Writes w (.chain level) a)
    (h' : Writes w' level.operand b) :
    Writes (do w; put op.symbol; w') (.chain level) (.binary op a b) := by
  obtain ⟨ws, hws, hreads⟩ := h
  obtain ⟨ws', hws', hreads'⟩ := h'
  refine ⟨_, ?_, hreads.snoc hlevel hreads'⟩
  exact hws.bind ((emits_symbol hop).bind hws' fun _ h => h) fun _ h => h

end Writes

/-! ### Names and integers

The names of the language are names of the JavaScript grammar. The two words that are not names
there, `let` and `return`, are reserved in the language too. -/

theorem isWordChar_of_isAlphanum {c : Char} (h : c.isAlphanum) : isWordChar c :=
  decide_eq_true (.inl h)

/-- A name begins with a letter or an underscore, and goes on with letters and digits. -/
theorem exists_letter {name : String} (h : IsIdentifier name) :
    ∃ c cs, name.toList = c :: cs ∧ isWordChar c ∧ ¬ c.isDigit ∧ cs.all Char.isAlphanum := by
  obtain ⟨hhead, htail, -⟩ := h
  cases hname : name.toList with
  | nil =>
    rw [hname] at hhead
    cases hhead
  | cons c cs =>
    rw [hname] at hhead htail
    have hchar := of_decide_eq_true hhead
    refine ⟨c, cs, rfl, ?_, fun hdigit => Lexeme.not_isLetter_of_isDigit hdigit hhead, htail⟩
    exact decide_eq_true (hchar.imp (fun h => by simp [Char.isAlphanum, h]) .inl)

theorem isName_of_isIdentifier {name : String} (h : IsIdentifier name) : IsName name := by
  obtain ⟨c, cs, hname, hword, hdigit, hcs⟩ := exists_letter h
  have hreserved := h.2.2
  refine ⟨⟨?_, ?_⟩, ?_, ?_⟩
  · rw [hname]
    exact decide_eq_true ⟨hword, hdigit⟩
  · rw [hname, List.all_cons, hword, Bool.true_and]
    exact List.all_eq_true.mpr fun d hd => isWordChar_of_isAlphanum (List.all_eq_true.mp hcs d hd)
  · rintro rfl
    exact hreserved (by decide)
  · rintro rfl
    exact hreserved (by decide)

theorem cuts_name {name : String} (h : IsIdentifier name) :
    Cuts name.toList BeginsPhrase StopsWord [name] := by
  obtain ⟨c, cs, hname, hword, -⟩ := exists_letter h
  have hhead : name.toList.head? = some c := by rw [hname, List.head?_cons]
  refine (cuts_word (.inl (isName_of_isIdentifier h).1) hhead hword).mono ?_ fun _ h => h
  exact fun cs hcs => hcs.beginsPhrase (.inl hword)

theorem writes_var {name : String} (h : IsIdentifier name) :
    Writes (put name) .primary (.var name) :=
  ⟨[name], emits_put (cuts_name h), .var (isName_of_isIdentifier h)⟩

/-- The digits of a number have no zero in front, which JavaScript would read as an octal numeral.
-/
theorem isInteger_repr (n : ℕ) : IsInteger (n : ℤ).repr := by
  obtain ⟨c, cs, hdigits, hzero, -⟩ := Decimal.exists_toDigits_cons n
  rw [IsInteger, Decimal.toList_repr]
  refine ⟨?_, ?_, ?_⟩
  · rw [hdigits]
    exact List.cons_ne_nil c cs
  · exact List.all_eq_true.mpr fun d hd => Nat.isDigit_of_mem_toDigits (by decide) (by decide) hd
  · rw [hdigits]
    intro hhead
    obtain rfl := Option.some.inj hhead
    rw [hzero rfl]

theorem cuts_integer {w : String} (h : IsInteger w) :
    Cuts w.toList BeginsPhrase StopsWord [w] := by
  obtain ⟨hne, hdigits, -⟩ := h
  rw [List.all_eq_true] at hdigits
  obtain ⟨c, cs, hw⟩ := List.exists_cons_of_ne_nil hne
  have hhead : w.toList.head? = some c := by rw [hw, List.head?_cons]
  have hdigit : c.isDigit := hdigits c (List.mem_of_head? hhead)
  have hword : ∀ d ∈ w.toList, isWordChar d := fun d hd =>
    isWordChar_of_isAlphanum (by simp [Char.isAlphanum, hdigits d hd])
  have hnumeral : IsNumeral w.toList := by
    refine ⟨?_, List.all_eq_true.mpr fun d hd => decide_eq_true (.inl (hword d hd))⟩
    rw [hhead]
    exact hdigit
  have hchar : isWordChar c := hword c (List.mem_of_head? hhead)
  refine (cuts_word (.inr (.inl hnumeral)) hhead hchar).mono ?_ fun _ h => h
  exact fun cs hcs => hcs.beginsPhrase (.inl hchar)

/-- Literals are not negative, and so a minus sign in the text always comes from an operator. -/
theorem writes_int {value : ℤ} (h : IsLiteral value) :
    Writes (put value.repr) .primary (.int value) := by
  obtain ⟨n, rfl⟩ := Int.eq_ofNat_of_zero_le h.1
  refine ⟨[(n : ℤ).repr], emits_put (cuts_integer (isInteger_repr n)), ?_⟩
  have hreads := Reads.int (isInteger_repr n)
  rwa [Decimal.toList_repr, Decimal.ofDigits_toDigits] at hreads

/-! ### Declarations, functions and calls

The longer pieces are put together from tokens with blanks behind them. A function takes several
lines. Its line breaks and its indentation are blank, and have no part in the reading. -/

theorem emits_let {name : String} (h : IsIdentifier name) :
    Emits (put ("let " ++ name ++ " = ")) (BeginsWith 'l') Anything ["let", name, "="] := by
  obtain ⟨c, cs, hname, hword, -⟩ := exists_letter h
  have hhead : name.toList.head? = some c := by rw [hname, List.head?_cons]
  have hlet : Cuts ("let".toList ++ [' ']) (BeginsWith 'l') Anything ["let"] :=
    cuts_token_blank (by decide) (.inl (by decide)) (by decide)
  have hname : Cuts (name.toList ++ [' ']) (BeginsWith c) Anything [name] :=
    cuts_token_blank hhead (.inl (isName_of_isIdentifier h).1) (by decide)
  have hassign : Cuts ("=".toList ++ [' ']) (BeginsWith '=') Anything ["="] :=
    cuts_token_blank (by decide) (isToken_of_mem (by decide)) (by decide)
  have hall := hlet.append (hname.append hassign fun _ _ => trivial) fun _ _ => trivial
  refine emits_put ?_
  rw [List.append_assoc name.toList] at hall
  rw [String.toList_append, String.toList_append, List.append_assoc]
  exact hall

theorem writes_declare {w : Writer Unit} {name : String} {e : Expr} (hname : IsIdentifier name)
    (h : Writes w .expression e) :
    Writes (do put ("let " ++ name ++ " = "); w) .expression (.declare name e) := by
  obtain ⟨ws, hws, hreads⟩ := h
  refine ⟨_, ?_, .declare (isName_of_isIdentifier hname) hreads⟩
  refine ((emits_let hname).bind hws fun _ _ => trivial).mono ?_ fun _ h => h
  exact fun cs hcs => hcs.beginsPhrase (by decide)

/-- Parameters stand with commas between them. They are written in one go and not by a writer of
their own, and so this is about a text; the induction is on the list as `intercalate` takes it. -/
theorem cuts_params {params : List String} (h : ∀ x ∈ params, IsIdentifier x) :
    Cuts (", ".intercalate params).toList Anything StopsWord
      (commas (params.map fun x => [x])) := by
  rw [String.toList_intercalate]
  induction params with
  | nil => exact fun rest us _ hus => ⟨trivial, hus⟩
  | cons x params ih =>
    obtain ⟨hx, hparams⟩ := List.forall_mem_cons.mp h
    rw [List.map_cons, List.map_cons, commas_cons]
    cases params with
    | nil =>
      rw [List.map_nil, List.map_nil, List.intercalate_singleton, commasAfter, List.append_nil]
      exact (cuts_name hx).mono (fun _ _ => trivial) fun _ h => h
    | cons y params =>
      rw [List.map_cons, List.intercalate_cons_cons, List.append_assoc]
      have hrest := cuts_comma.append (ih hparams) fun _ _ => trivial
      have hall := (cuts_name hx).append hrest fun cs hcs => hcs.stopsWord (by decide)
      exact hall.mono (fun _ _ => trivial) fun _ h => h

/-- The opening of a function, up to its body. -/
theorem emits_params {params : List String} (h : ∀ x ∈ params, IsIdentifier x) :
    Emits (put ("(" ++ ", ".intercalate params ++ ") => \x7b\n")) (BeginsWith '(') Anything
      ("(" :: (commas (params.map fun x => [x]) ++ [")", "=>", "\x7b"])) := by
  have hclose : Cuts (")".toList ++ [' ']) (BeginsWith ')') Anything [")"] :=
    cuts_token_blank (by decide) (isToken_of_mem (by decide)) (by decide)
  have harrow : Cuts ("=>".toList ++ [' ']) (BeginsWith '=') Anything ["=>"] :=
    cuts_token_blank (by decide) (isToken_of_mem (by decide)) (by decide)
  have hbrace : Cuts ("\x7b".toList ++ ['\n']) (BeginsWith '\x7b') Anything ["\x7b"] :=
    cuts_token_blank (by decide) (isToken_of_mem (by decide)) (by decide)
  have hend := hclose.append (harrow.append hbrace fun _ _ => trivial) fun _ _ => trivial
  have hparams := (cuts_params h).append hend fun cs hcs => hcs.stopsWord (by decide)
  refine emits_put ?_
  rw [String.toList_append, String.toList_append, List.append_assoc]
  exact cuts_open.append hparams fun _ _ => trivial

theorem writes_func {w : Writer Unit} {params : List String} {e : Expr}
    (hparams : ∀ x ∈ params, IsIdentifier x) (h : Writes w .expression e) :
    Writes (do
      put ("(" ++ ", ".intercalate params ++ ") => \x7b\n")
      nested do indent; put "return "; w; put ";\n"
      indent
      put "\x7d") .expression (.func params e) := by
  obtain ⟨ws, hws, hreads⟩ := h
  have hbody := hws.bind emits_end fun cs hcs => hcs.stopsWord (by decide)
  have hline := emits_indent.bind (emits_return.bind hbody fun _ _ => trivial) fun _ _ => trivial
  have hlast := emits_indent.bind emits_closeBrace fun _ _ => trivial
  have hall := (emits_params hparams).bind (hline.nested.bind hlast fun _ _ => trivial)
    fun _ _ => trivial
  refine ⟨_, hall.mono (fun cs hcs => hcs.beginsPhrase (by decide)) fun _ _ => trivial, ?_⟩
  have harrow := Reads.arrow (fun x hx => isName_of_isIdentifier (hparams x hx)) hreads
  simpa using harrow

/-- The arguments behind the first one. The tokens of the arguments are not known beforehand, and
are returned with their readings, in the form in which the grammar of calls takes them. -/
theorem emits_writeMoreArgs {args : List Expr}
    (h : ∀ e ∈ args, Writes (write false e) .expression e.norm) :
    ∃ items : List (List String × Expr), items.map Prod.snd = args.map Expr.norm ∧
      (∀ item ∈ items, Reads .expression item.1 item.2) ∧
      Emits (writeMoreArgs args) StopsWord StopsWord (commasAfter (items.map Prod.fst)) := by
  induction args with
  | nil => exact ⟨[], rfl, List.forall_mem_nil _, emits_pure StopsWord⟩
  | cons e args ih =>
    obtain ⟨⟨ws, hws, hreads⟩, hargs⟩ := List.forall_mem_cons.mp h
    obtain ⟨items, hitems, hall, hemits⟩ := ih hargs
    refine ⟨(ws, e.norm) :: items, by rw [List.map_cons, hitems, List.map_cons],
      List.forall_mem_cons.mpr ⟨hreads, hall⟩, ?_⟩
    rw [writeMoreArgs, List.map_cons, commasAfter, commas_cons]
    have hrest := hws.bind hemits fun _ h => h
    exact (emits_comma.bind hrest fun _ _ => trivial).mono (fun cs hcs => hcs.stopsWord (by decide))
      fun _ h => h

theorem emits_writeArgs {args : List Expr}
    (h : ∀ e ∈ args, Writes (write false e) .expression e.norm) :
    ∃ items : List (List String × Expr), items.map Prod.snd = args.map Expr.norm ∧
      (∀ item ∈ items, Reads .expression item.1 item.2) ∧
      Emits (writeArgs args) Anything StopsWord (commas (items.map Prod.fst)) := by
  cases args with
  | nil =>
    refine ⟨[], rfl, List.forall_mem_nil _, ?_⟩
    exact (emits_pure StopsWord).mono (fun _ _ => trivial) fun _ h => h
  | cons e args =>
    obtain ⟨⟨ws, hws, hreads⟩, hargs⟩ := List.forall_mem_cons.mp h
    obtain ⟨items, hitems, hall, hemits⟩ := emits_writeMoreArgs hargs
    refine ⟨(ws, e.norm) :: items, by rw [List.map_cons, hitems, List.map_cons],
      List.forall_mem_cons.mpr ⟨hreads, hall⟩, ?_⟩
    rw [writeArgs, List.map_cons, commas_cons]
    exact (hws.bind hemits fun _ h => h).mono (fun _ _ => trivial) fun _ h => h

theorem writes_call {w : Writer Unit} {callee : Expr} {args : List Expr}
    (h : Writes w .primary callee) (hargs : ∀ e ∈ args, Writes (write false e) .expression e.norm) :
    Writes (do w; put "("; writeArgs args; put ")") .application
      (.call callee (args.map Expr.norm)) := by
  obtain ⟨ws, hws, hreads⟩ := h
  obtain ⟨items, hitems, hall, hemits⟩ := emits_writeArgs hargs
  have hclose := hemits.bind emits_close fun cs hcs => hcs.stopsWord (by decide)
  have hlist := emits_open.bind hclose fun _ _ => trivial
  refine ⟨_, (hws.bind hlist fun cs hcs => hcs.stopsWord (by decide)).mono (fun _ h => h)
    fun _ _ => trivial, ?_⟩
  rw [← hitems]
  exact .application hreads (.call hall (.noCall _))

/-! ### Trees

The induction is on the layers of the tree (`Expr.Fits`), and each rule of the layers goes to the
lemma of its writer. -/

/-- The phrases of JavaScript that the trees of a layer become. Powers and calls are both calls
there, and the layers of operators are the chains of the JavaScript grammar. -/
def phraseOf : Grammar.Layer → Phrase
  | .statement => .expression
  | .sum => .chain .sum
  | .product => .chain .product
  | .signed => .signed
  | .power | .application => .application
  | .primary => .primary

theorem Reads.of_phraseOf {layer : Grammar.Layer} {ts : List String} {e : Expr}
    (h : Reads (phraseOf layer) ts e) : Reads .expression ts e := by
  cases layer with
  | statement => exact h
  | sum => exact .ofSum h
  | product => exact .ofSum (.single .sum h)
  | signed => exact .ofSum (.single .sum (.single .product h))
  | power | application => exact .ofSum (.single .sum (.single .product (.ofApplication h)))
  | primary => exact .ofSum (.single .sum (.single .product (.ofApplication (.ofPrimary h))))

/-- To write without the parentheses at the root is to write the tree without them. -/
theorem write_true (e : Expr) : write true e = write false e.stripParen := by
  cases e with
  | binary op => cases op <;> rfl
  | unary op => cases op <;> rfl
  | _ => rfl

/-- The tree is written as a phrase of its layer, and without the parentheses at its root as an
expression. Both are carried through the induction because an operand of a power is written in the
second way and everything else in the first. -/
structure WritesAs (layer : Grammar.Layer) (e : Expr) : Prop where
  phrase : Writes (write false e) (phraseOf layer) e.norm
  bare : Writes (write true e) .expression e.stripParen.norm

/-- Without parentheses at the root the two ways are one, and a phrase of any layer is an
expression. -/
theorem Writes.as {layer : Grammar.Layer} {e : Expr} (hstrip : e.stripParen = e)
    (h : Writes (write false e) (phraseOf layer) e.norm) : WritesAs layer e := by
  refine ⟨h, ?_⟩
  rw [write_true, hstrip]
  exact h.imp Reads.of_phraseOf

theorem WritesAs.imp {layer layer' : Grammar.Layer} {e : Expr} (h : WritesAs layer e)
    (hlayer : ∀ {ts}, Reads (phraseOf layer) ts e.norm → Reads (phraseOf layer') ts e.norm) :
    WritesAs layer' e :=
  ⟨h.phrase.imp hlayer, h.bare⟩

theorem writesAs_sum {op : BinaryOp} {left right : Expr} (hop : op = .add ∨ op = .sub)
    (hleft : WritesAs .sum left) (hright : WritesAs .product right) :
    WritesAs .sum (.binary op left right) := by
  rcases hop with rfl | rfl
  · exact Writes.as rfl (writes_operator (by decide) (by decide) hleft.phrase hright.phrase)
  · exact Writes.as rfl (writes_sub hleft.phrase hright.phrase)

theorem writesAs_product {op : BinaryOp} {left right : Expr} (hop : op = .mul ∨ op = .div)
    (hleft : WritesAs .product left) (hright : WritesAs .signed right) :
    WritesAs .product (.binary op left right) := by
  rcases hop with rfl | rfl
  all_goals
    exact Writes.as rfl (writes_operator (by decide) (by decide) hleft.phrase hright.phrase)

/-- A plus sign is left out, in the text and in the normal form. -/
theorem writesAs_sign {op : UnaryOp} {e : Expr} (h : WritesAs .signed e) :
    WritesAs .signed (.unary op e) := by
  cases op with
  | plus => exact Writes.as rfl h.phrase
  | minus => exact Writes.as rfl (writes_minus h.phrase)

theorem writesAs_power {base exponent : Expr} (hbase : WritesAs .application base)
    (hexponent : WritesAs .signed exponent) : WritesAs .power (.binary .pow base exponent) := by
  refine Writes.as rfl ?_
  rw [Expr.norm_pow]
  exact (writes_pow hbase.bare hexponent.bare).imp .ofPrimary

theorem writesAs_call {callee : Expr} {args : List Expr} (hcallee : WritesAs .primary callee)
    (hargs : ∀ e ∈ args, WritesAs .statement e) : WritesAs .application (.call callee args) := by
  refine Writes.as rfl ?_
  have hwrites := writes_call hcallee.phrase fun e he => (hargs e he).phrase
  rw [← Expr.normEach_eq_map] at hwrites
  exact hwrites

/-- **The text of a phrase is a phrase** with the normal form of its tree. -/
theorem writesAs_of_fits {layer : Grammar.Layer} {e : Expr} (h : e.Fits layer) :
    WritesAs layer e := by
  induction h with
  | func hparams _ ih => exact Writes.as rfl (writes_func hparams ih.phrase)
  | declare hname _ ih => exact Writes.as rfl (writes_declare hname ih.phrase)
  | ofSum _ ih => exact ih.imp .ofSum
  | sum hop _ _ ihleft ihright => exact writesAs_sum hop ihleft ihright
  | ofProduct _ ih => exact ih.imp (Reads.single .sum)
  | product hop _ _ ihleft ihright => exact writesAs_product hop ihleft ihright
  | ofSigned _ ih => exact ih.imp (Reads.single .product)
  | sign _ ih => exact writesAs_sign ih
  | ofPower _ ih => exact ih.imp .ofApplication
  | power _ _ ihbase ihexponent => exact writesAs_power ihbase ihexponent
  | ofApplication _ ih => exact ih.imp fun h => h
  | call _ _ ihcallee ihargs => exact writesAs_call ihcallee ihargs
  | ofPrimary _ ih => exact ih.imp .ofPrimary
  | var hname => exact Writes.as rfl (writes_var hname)
  | int hvalue => exact Writes.as rfl (writes_int hvalue)
  | paren _ ih => exact ⟨writes_paren ih.phrase, ih.phrase⟩

/-! ### Programs

The text of a program loses its blank lines at the end, which takes nothing from its tokens. -/

/-- Statements are written one after the other, whatever stands behind them. -/
theorem emits_writeStatements {es : List Expr} (h : ∀ e ∈ es, e.Fits .statement) :
    ∃ ws, Emits (writeStatements es) Anything Anything ws ∧ Statements ws (es.map Expr.norm) := by
  induction es with
  | nil => exact ⟨[], emits_pure Anything, .nil⟩
  | cons e es ih =>
    obtain ⟨he, hes⟩ := List.forall_mem_cons.mp h
    obtain ⟨ws, hws, hreads⟩ := (writesAs_of_fits he).phrase
    obtain ⟨us, hus, hstatements⟩ := ih hes
    refine ⟨ws ++ ";" :: us, ?_, .cons hreads hstatements⟩
    have hend := emits_end.bind hus fun _ _ => trivial
    have hline := hws.bind hend fun cs hcs => hcs.stopsWord (by decide)
    exact emits_indent.bind hline fun _ _ => trivial

end JavaScript

open JavaScript

namespace Expr

/-- The text of a program can be read, and its normal form is what is read. -/
theorem WellFormed.isReading {t : Expr} (h : t.WellFormed) :
    ∃ text, t.toJavaScript = .ok text ∧ IsReading text t.norm := by
  obtain ⟨es, rfl, -, hes⟩ := h
  obtain ⟨ws, hemits, hstatements⟩ := emits_writeStatements hes
  obtain ⟨piece, hrun, hcuts⟩ := hemits Script.empty
  have htokens : Tokens piece ws := by
    have hall := (hcuts [] [] trivial .nil).2
    rwa [List.append_nil, List.append_nil] at hall
  rw [← String.toList_ofList (l := piece)] at htokens
  refine ⟨Text.withoutBlankLines (String.ofList piece), ?_, ws, es.map norm,
    htokens.withoutBlankLines, hstatements, ?_⟩
  · rw [Script.empty, String.empty_append] at hrun
    rw [toJavaScript, Script.write, Script.empty, hrun]
    rfl
  · rw [← normEach_eq_map]
    rfl

/-- **The JavaScript of a program has one reading**, and this is the normal form of the program. -/
theorem isReading_toJavaScript_iff {source : String}
    (h : ∀ message, Expr.parse source ≠ .malformed message) :
    ∃ text, (Expr.parse source).toJavaScript = .ok text ∧
      ∀ t, IsReading text t ↔ t = (Expr.parse source).norm := by
  obtain ⟨text, htext, hreading⟩ := (wellFormed_of_parse h).isReading
  refine ⟨text, htext, fun t => ⟨fun ht => ht.unique hreading, ?_⟩⟩
  rintro rfl
  exact hreading

/-- A minus sign behind another one, with a plus between them that is left out. -/
theorem isReading_toJavaScript_iff_signs :
    (∀ message, Expr.parse "a - + - ( b ) ** 2" ≠ .malformed message) ∧
      ∀ t, IsReading "a- -Math.pow(b, 2);" t ↔ t = .block
        [.binary .sub (.var "a") (.unary .minus (.binary .pow (.var "b") (.int 2)))] := by
  have hleft : Fits .sum (.var "a") :=
    .ofProduct (.ofSigned (.ofPower (.ofApplication (.ofPrimary (.var (by decide))))))
  have hbase : Fits .application (.paren (.var "b")) :=
    .ofPrimary (.paren (.ofSum (.ofProduct (.ofSigned (.ofPower (.ofApplication (.ofPrimary
      (.var (by decide)))))))))
  have hexponent : Fits .signed (.int 2) :=
    .ofPower (.ofApplication (.ofPrimary (.int (by decide))))
  have hright : Fits .product
      (.unary .plus (.unary .minus (.binary .pow (.paren (.var "b")) (.int 2)))) :=
    .ofSigned (.sign (.sign (.ofPower (.power hbase hexponent))))
  have hformed : WellFormed (.block [.binary .sub (.var "a")
      (.unary .plus (.unary .minus (.binary .pow (.paren (.var "b")) (.int 2))))]) :=
    ⟨_, rfl, List.cons_ne_nil _ _,
      List.forall_mem_singleton.mpr (.ofSum (.sum (.inr rfl) hleft hright))⟩
  have hparse := parse_canonical hformed
  have hsource : canonical (.block [.binary .sub (.var "a")
      (.unary .plus (.unary .minus (.binary .pow (.paren (.var "b")) (.int 2))))]) =
      "a - + - ( b ) ** 2" := by cbv
  rw [hsource] at hparse
  have hread : ∀ message, Expr.parse "a - + - ( b ) ** 2" ≠ .malformed message := by
    intro message hmessage
    cases hparse.symm.trans hmessage
  obtain ⟨text, htext, hreading⟩ := isReading_toJavaScript_iff hread
  rw [hparse] at htext hreading
  have hwritten : (.ok text : Except Error String) = .ok "a- -Math.pow(b, 2);" := htext.symm
  obtain rfl := Except.ok.inj hwritten
  exact ⟨hread, hreading⟩

end Expr

end ArrowCalc
