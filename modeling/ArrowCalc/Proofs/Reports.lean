import ArrowCalc.CommandLine.Basic
import ArrowCalc.Proofs.Composition
import ArrowCalc.Proofs.JavaScript.Emission

/-!
# Failures and outputs in one text

`Mode.render` gives one text for an output and for a failure, and the command line tells them apart
by the mark at the beginning. This is sound because no output begins with the mark, for a different
reason in each mode:

* a listing begins with the name of a kind, and no kind has a name that begins like the mark;
* the text of a function begins with `<`, and a number is written without the letter `E`;
* an outline begins with `ExpList`;
* a script may begin with any name, and `Error` is one. But no token of a script has a colon.

## Main definitions

* `Number.IsNumeralChar` — the characters of finite numbers

## Main results

* `Number.E_notMem_text` — numbers are written without the letter `E`
* `JavaScript.IsReading.colon_notMem` — scripts have no colon
* `Mode.isFailure_of_run_eq_ok` — no output begins with the mark
* `Mode.render_reported` — the command line reports exactly the failures as failures
-/

namespace ArrowCalc

/-! ### Texts without the mark

The mark is a fixed text, and a text begins with it or not. Nobody escapes it in the outputs. -/

namespace CommandLine

/-- A failure is a text that begins with the mark. -/
theorem isFailure_iff {text : String} :
    isFailure text = true ↔ Mode.errorMark.toList <+: text.toList := List.isPrefixOf_iff_prefix

/-- A text that lacks a character of the mark is no failure. -/
theorem isFailure_of_notMem {text : String} {c : Char} (hc : c ∈ Mode.errorMark.toList)
    (h : c ∉ text.toList) : isFailure text = false := by
  rw [← Bool.not_eq_true, isFailure_iff]
  exact fun hbegins => h (hbegins.subset hc)

/-- Two characters are enough to see that a text is no failure. -/
theorem isFailure_append {head : String} {c d : Char} {cs : List Char}
    (hhead : head.toList = c :: d :: cs) (h : ¬ (c = 'E' ∧ d = 'r')) (text : String) :
    isFailure (head ++ text) = false := by
  rw [← Bool.not_eq_true, isFailure_iff, String.toList_append, hhead]
  intro hbegins
  obtain ⟨hc, hbegins⟩ := List.cons_prefix_cons.mp hbegins
  obtain ⟨hd, -⟩ := List.cons_prefix_cons.mp hbegins
  exact h ⟨hc.symm, hd.symm⟩

end CommandLine

/-! ### Listings -/

/-- The names of kinds have two characters or more, and do not begin like the mark. -/
theorem TokenKind.exists_text (kind : TokenKind) :
    ∃ c d cs, kind.text.toList = c :: d :: cs ∧ ¬ (c = 'E' ∧ d = 'r') := by
  cases kind <;> exact ⟨_, _, _, rfl, by decide⟩

/-- A listing is never taken for a failure. -/
theorem TokenStream.isFailure_listing (s : TokenStream) :
    CommandLine.isFailure s.listing = false := by
  rw [listing]
  cases s.tokens with
  | nil => decide
  | cons t ts =>
    obtain ⟨c, d, cs, htext, hne⟩ := t.kind.exists_text
    rw [List.map_cons]
    cases ts.map Token.text with
    | nil =>
      rw [String.intercalate_singleton, Token.text, String.append_assoc, String.append_assoc,
        String.append_assoc]
      exact CommandLine.isFailure_append htext hne _
    | cons next rest =>
      rw [String.intercalate_cons_cons, Token.text]
      simp only [String.append_assoc]
      exact CommandLine.isFailure_append htext hne _

/-! ### Values

The text of a number that is not finite has letters too, and is looked at separately. -/

namespace Number

/-- Finite numbers are written with digits, a point, the mark of an exponent and signs. -/
def IsNumeralChar (c : Char) : Prop := c.isDigit ∨ c ∈ ['.', 'e', '+', '-']

theorem isNumeralChar_toDigits (n : ℕ) : ∀ c ∈ Nat.toDigits 10 n, IsNumeralChar c :=
  fun _ hc => .inl (Nat.isDigit_of_mem_toDigits (by decide) (by decide) hc)

theorem isNumeralChar_replicate (n : ℕ) : ∀ c ∈ List.replicate n '0', IsNumeralChar c := by
  intro c hc
  rw [List.eq_of_mem_replicate hc]
  exact .inl (by decide)

section Layout

variable {digits : List Char}

theorem isNumeralChar_scientific (h : ∀ c ∈ digits, IsNumeralChar c) (n : ℤ) :
    ∀ c ∈ scientific digits n, IsNumeralChar c := by
  have hfraction : ∀ c ∈ if digits.drop 1 = [] then [] else '.' :: digits.drop 1,
      IsNumeralChar c := by
    split
    · exact List.forall_mem_nil _
    · exact List.forall_mem_cons.mpr ⟨.inr (by decide), fun c hc => h c (List.mem_of_mem_drop hc)⟩
  have hsign : IsNumeralChar (if n - 1 < 0 then '-' else '+') := by
    split <;> exact .inr (by decide)
  simp only [scientific, List.forall_mem_append, List.forall_mem_cons]
  exact ⟨⟨fun c hc => h c (List.mem_of_mem_take hc), hfraction⟩, .inr (by decide), hsign,
    isNumeralChar_toDigits _⟩

/-- A layout adds zeros, a point and an exponent to the digits. -/
theorem isNumeralChar_layout (h : ∀ c ∈ digits, IsNumeralChar c) (n : ℤ) :
    ∀ c ∈ layout digits n, IsNumeralChar c := by
  have hpoint : IsNumeralChar '.' := .inr (by decide)
  rw [layout]
  split
  · exact List.forall_mem_append.mpr ⟨h, isNumeralChar_replicate _⟩
  · split
    · refine List.forall_mem_append.mpr ⟨fun c hc => h c (List.mem_of_mem_take hc), ?_⟩
      exact List.forall_mem_cons.mpr ⟨hpoint, fun c hc => h c (List.mem_of_mem_drop hc)⟩
    · split
      · simp only [List.cons_append, List.forall_mem_cons, List.forall_mem_append]
        exact ⟨.inl (by decide), hpoint, isNumeralChar_replicate _, h⟩
      · exact isNumeralChar_scientific h n

end Layout

theorem isNumeralChar_ofDecimal (d : Decimal) : ∀ c ∈ ofDecimal d, IsNumeralChar c := by
  refine isNumeralChar_layout (fun c hc => ?_) _
  have hdropped := (List.dropWhile_sublist _).mem (List.mem_reverse.mp hc)
  exact isNumeralChar_toDigits _ c (List.mem_reverse.mp hdropped)

/-- Numbers are written without the letter `E`. -/
theorem E_notMem_text (x : Float) : 'E' ∉ (text x).toList := by
  have hsign : ∀ b : Prop, [Decidable b] → 'E' ∉ (if b then "" else "-").toList := by
    intro b _
    split <;> decide
  have hletter : ¬ IsNumeralChar 'E' := by
    rintro (h | h)
    · exact absurd h (by decide)
    · exact absurd h (by decide)
  simp only [text]
  split
  · decide
  · split
    · rw [String.toList_append, List.mem_append]
      exact not_or.mpr ⟨hsign _, by decide⟩
    · split
      · decide
      · rw [String.toList_append, String.toList_ofList, List.mem_append]
        exact not_or.mpr ⟨hsign _, fun h => hletter (isNumeralChar_ofDecimal _ _ h)⟩

end Number

/-- The text of a value is never taken for a failure. -/
theorem Value.isFailure_text (v : Value) : CommandLine.isFailure v.text = false := by
  cases v with
  | num x => exact CommandLine.isFailure_of_notMem (by decide) (Number.E_notMem_text x)
  | func params body =>
    rw [Value.text, String.append_assoc]
    exact CommandLine.isFailure_append rfl (by decide) _

/-! ### Scripts

The first token of a script says nothing, so all of its characters are looked at. -/

namespace JavaScript

/-- What stands in a text stands in a token, unless it is white space. -/
theorem Tokens.forall_mem {P : Char → Prop} {cs : List Char} {ws : List String} (h : Tokens cs ws)
    (hblank : ∀ c, Text.isBlank c → P c) (hws : ∀ w ∈ ws, ∀ c ∈ w.toList, P c) :
    ∀ c ∈ cs, P c := by
  induction h with
  | nil => exact List.forall_mem_nil _
  | blank hc _ ih => exact List.forall_mem_cons.mpr ⟨hblank _ hc, ih hws⟩
  | token _ _ ih =>
    obtain ⟨hw, hws⟩ := List.forall_mem_cons.mp hws
    exact List.forall_mem_append.mpr ⟨hw, ih hws⟩

/-- Scripts have no colon. -/
theorem IsReading.colon_notMem {text : String} {t : Expr} (h : IsReading text t) :
    ':' ∉ text.toList := by
  obtain ⟨ws, es, hws, hes, -⟩ := h
  have hname : ∀ w, IsName w → ∀ c ∈ w.toList, c ≠ ':' := by
    rintro w ⟨hword, -⟩ c hc rfl
    exact absurd (List.all_eq_true.mp hword.2 _ hc) (by decide)
  have hinteger : ∀ w, IsInteger w → ∀ c ∈ w.toList, c ≠ ':' := by
    rintro w ⟨-, hdigits, -⟩ c hc rfl
    exact absurd (List.all_eq_true.mp hdigits _ hc) (by decide)
  have hsymbol : ∀ w ∈ symbols, ∀ c ∈ w.toList, c ≠ ':' := by
    have htable : ∀ w ∈ symbols, w.toList.all (· ≠ ':') := by decide
    exact fun w hw c hc => of_decide_eq_true (List.all_eq_true.mp (htable w hw) c hc)
  have hblank : ∀ c, Text.isBlank c → c ≠ ':' := by
    rintro c hc rfl
    exact absurd hc (by decide)
  exact fun hmem => hws.forall_mem hblank (hes.forall_mem hname hinteger hsymbol) _ hmem rfl

end JavaScript

/-! ### Modes -/

namespace Mode

open CommandLine

/-- A source whose tree can be written or shown is a program. -/
theorem exists_block_of_ok {source : String} {output : String} {f : Expr → Except Error String}
    (hf : ∀ message, f (.malformed message) = .error (.malformed message))
    (h : f (Expr.parse source) = .ok output) : ∃ es, Expr.parse source = .block es := by
  rcases TokenStream.readProgram_cases (TokenStream.ofSource source).marked with
    ⟨es, -, hes⟩ | ⟨message, hmessage⟩
  · exact ⟨es, hes⟩
  · rw [Expr.parse, hmessage, hf] at h
    cases h

/-- No output begins with the mark of failures. -/
theorem isFailure_of_run_eq_ok {depth : ℕ} {mode : Mode} {source output : String}
    (h : mode.run depth source = .ok output) : isFailure output = false := by
  cases mode with
  | lex =>
    cases h
    exact TokenStream.isFailure_listing _
  | eval =>
    rw [run, Expr.evaluate] at h
    split at h
    · cases h
      exact Value.isFailure_text _
    · cases h
  | compile =>
    obtain ⟨es, hes⟩ := exists_block_of_ok (f := Expr.toJavaScript) (fun _ => rfl) h
    have hparse : ∀ message, Expr.parse source ≠ .malformed message := by
      intro message hmessage
      cases hes.symm.trans hmessage
    obtain ⟨text, htext, hreading⟩ := (Expr.wellFormed_of_parse hparse).isReading
    cases htext.symm.trans h
    exact isFailure_of_notMem (by decide) hreading.colon_notMem
  | ast =>
    obtain ⟨es, hes⟩ := exists_block_of_ok (f := Expr.outline) (fun _ => rfl) h
    obtain ⟨hne, hfault⟩ := Expr.faultOfEach?_of_parse hes
    obtain ⟨added, hadded, hrun⟩ := Outline.exists_run_writeAll hne hfault
    rw [run, hes, Expr.outline_block (hadded 1) (hrun _), String.append_assoc] at h
    cases h
    exact isFailure_append rfl (by decide) _

/-- **The mark is unambiguous.** The text for a source begins with the mark exactly if there was an
error. So the command line writes an output to the standard output, and the message of an error to
the standard error. -/
theorem render_reported (depth : ℕ) (mode : Mode) (source : String) :
    (isFailure (mode.render depth source) = true ↔
        ∃ error, mode.run depth source = .error error) ∧
      (∀ output, mode.run depth source = .ok output →
        report (mode.render depth source) = ⟨0, output ++ "\n", ""⟩) ∧
      ∀ error, mode.run depth source = .error error →
        report (mode.render depth source) = ⟨0, "", errorMark ++ error.message ++ "\n"⟩ := by
  cases hrun : mode.run depth source with
  | ok output =>
    have houtput := isFailure_of_run_eq_ok hrun
    rw [render, hrun]
    refine ⟨⟨fun h => ?_, fun ⟨_, h⟩ => ?_⟩, fun _ h => ?_, fun _ h => ?_⟩
    · rw [houtput] at h
      cases h
    · cases h
    · cases h
      rw [report, houtput]
      rfl
    · cases h
  | error error =>
    have hmark : isFailure (errorMark ++ error.message) = true := by
      rw [isFailure_iff, String.toList_append]
      exact List.prefix_append _ _
    rw [render, hrun]
    refine ⟨⟨fun _ => ⟨error, rfl⟩, fun _ => hmark⟩, fun _ h => ?_, fun _ h => ?_⟩
    · cases h
    · cases h
      rw [report, hmark]
      rfl

end Mode

end ArrowCalc
