import ArrowCalc.CommandLine.Basic
import ArrowCalc.Proofs.Reports

/-!
# Interaction

Without a path, the program answers the lines of its input one by one. This file says what it has
written when it ends, and with which code, for every input.

The program decodes each line by itself. That it accepts the lines exactly if the whole input is
text is a fact about UTF-8: the byte of a line feed is never a part of another character, so a cut
after a line feed is a cut between characters.

## Main definitions

* `encode` — the bytes of a text
* `IsCut` — the lines of an input
* `answers`, `failures` — what is written about lines that are text

## Main results

* `decode_eq_ok_iff` — decoding is the inverse of encoding
* `isCut_iff` — every input has exactly one cut
* `exists_texts_iff` — the lines are text exactly if the input is
* `interact_texts_append` — what is written about lines that are text
* `Options.run_interactive` — the responses of the interactive program
-/

namespace ArrowCalc

namespace CommandLine

/-! ### Text in bytes -/

/-- The bytes of a text in UTF-8. -/
def encode (text : String) : List UInt8 := text.toList.flatMap String.utf8EncodeChar

theorem encode_eq_iff {text : String} {bytes : List UInt8} :
    encode text = bytes ↔ text.toByteArray = bytes.toByteArray := by
  have htext : text.toByteArray = (encode text).toByteArray := by
    rw [← String.utf8Encode_toList]
    rfl
  rw [htext]
  refine ⟨congrArg _, fun h => ?_⟩
  have hdata := congrArg ByteArray.data h
  rwa [List.data_toByteArray, List.data_toByteArray, Array.mk.injEq] at hdata

/-- Decoding is the inverse of encoding. -/
theorem decode_eq_ok_iff {bytes : List UInt8} {text : String} :
    decode bytes = .ok text ↔ encode text = bytes := by
  rw [encode_eq_iff, decode]
  by_cases h : bytes.toByteArray.IsValidUTF8
  · have hsome : String.fromUTF8? bytes.toByteArray = some (.ofByteArray _ h) := dif_pos h
    rw [hsome, Except.ok.injEq, eq_comm, ← String.toByteArray_inj]
  · have hnone : String.fromUTF8? bytes.toByteArray = none := dif_neg h
    rw [hnone]
    refine ⟨fun hok => ?_, fun heq => absurd (heq ▸ text.isValidUTF8) h⟩
    cases hok

/-- What is not the encoding of a text cannot be decoded. -/
theorem decode_eq_error {bytes : List UInt8} (h : ∀ text, encode text ≠ bytes) :
    decode bytes = .error .notText := by
  cases hdecode : decode bytes with
  | ok text => exact absurd (decode_eq_ok_iff.mp hdecode) (h text)
  | error failure =>
    rw [decode] at hdecode
    split at hdecode
    · cases hdecode
    · exact hdecode.symm

/-- The byte of a line feed is not a part of any other character: all bytes of a character beyond
ASCII are at least 128. -/
theorem eq_lineFeed_of_mem {c : Char} (h : 10 ∈ String.utf8EncodeChar c) : c = '\n' := by
  have hcode : ∀ n, (10 : UInt8) = UInt8.ofNat n → n % 256 = 10 := by
    intro n hn
    have htoNat := congrArg UInt8.toNat hn
    rw [UInt8.toNat_ofNat'] at htoNat
    exact htoNat.symm
  -- all bytes of a longer code have their first bit set
  have hlarge : ∀ n, 128 ≤ n → n < 256 → (10 : UInt8) ≠ UInt8.ofNat n := by
    intro n hlow hhigh hn
    have hmod := hcode n hn
    omega
  have hval : c.val.toNat = 10 := by
    delta String.utf8EncodeChar at h
    dsimp only at h
    generalize c.val.toNat = v at h
    by_cases hone : v ≤ 0x7f
    · rw [if_pos hone, List.mem_singleton] at h
      have hmod := hcode v h
      omega
    rw [if_neg hone] at h
    by_cases htwo : v ≤ 0x7ff
    · rw [if_pos htwo] at h
      simp only [List.mem_cons, List.not_mem_nil, or_false] at h
      rcases h with h | h <;> exact absurd h (hlarge _ (by omega) (by omega))
    rw [if_neg htwo] at h
    by_cases hthree : v ≤ 0xffff
    · rw [if_pos hthree] at h
      simp only [List.mem_cons, List.not_mem_nil, or_false] at h
      rcases h with h | h | h <;> exact absurd h (hlarge _ (by omega) (by omega))
    · rw [if_neg hthree] at h
      simp only [List.mem_cons, List.not_mem_nil, or_false] at h
      rcases h with h | h | h | h <;> exact absurd h (hlarge _ (by omega) (by omega))
  exact Char.ext (UInt32.toNat_inj.mp hval)

/-! ### Lines -/

/-- The lines of an input: it is cut after each line feed and nowhere else. -/
structure IsCut (input : List UInt8) (lines : List (List UInt8)) : Prop where
  /-- The lines spell the input. -/
  flatten_eq : lines.flatten = input
  /-- No line is empty. -/
  ne_nil : ∀ line ∈ lines, line ≠ []
  /-- There is no line feed before the end of a line. -/
  notMem_dropLast : ∀ line ∈ lines, 10 ∉ line.dropLast
  /-- All lines but the last one end with a line feed. -/
  getLast?_eq : ∀ line ∈ lines.dropLast, line.getLast? = some 10

theorem IsCut.nil : IsCut [] [] where
  flatten_eq := rfl
  ne_nil := fun _ h => absurd h List.not_mem_nil
  notMem_dropLast := fun _ h => absurd h List.not_mem_nil
  getLast?_eq := fun _ h => absurd h List.not_mem_nil

/-- One line after another: a line that is followed by others ends with a line feed. -/
theorem isCut_cons_iff {input line : List UInt8} {lines : List (List UInt8)} :
    IsCut input (line :: lines) ↔
      ∃ rest, input = line ++ rest ∧ line ≠ [] ∧ 10 ∉ line.dropLast ∧
        (lines = [] ∨ line.getLast? = some 10) ∧ IsCut rest lines := by
  constructor
  · rintro ⟨rfl, hne, hline, hend⟩
    obtain ⟨hne₀, hne⟩ := List.forall_mem_cons.mp hne
    obtain ⟨hline₀, hline⟩ := List.forall_mem_cons.mp hline
    refine ⟨lines.flatten, rfl, hne₀, hline₀, ?_, rfl, hne, hline, fun l hl => ?_⟩
    · cases lines with
      | nil => exact .inl rfl
      | cons next lines => exact .inr (hend line List.mem_cons_self)
    · cases lines with
      | nil => cases hl
      | cons next lines => exact hend l (List.mem_cons_of_mem _ hl)
  · rintro ⟨rest, rfl, hne₀, hline₀, hend₀, rfl, hne, hline, hend⟩
    refine ⟨rfl, List.forall_mem_cons.mpr ⟨hne₀, hne⟩, List.forall_mem_cons.mpr ⟨hline₀, hline⟩, ?_⟩
    cases lines with
    | nil => exact fun _ h => absurd h List.not_mem_nil
    | cons next lines =>
      exact List.forall_mem_cons.mpr ⟨hend₀.resolve_left (List.cons_ne_nil _ _), hend⟩

/-- Bytes that are not line feeds stand in front of the next line. -/
theorem inputLines_append {bytes : List UInt8} (hne : bytes ≠ []) (hbytes : 10 ∉ bytes)
    (rest : List UInt8) :
    inputLines (bytes ++ rest) =
      (bytes ++ (inputLines rest).headD []) :: (inputLines rest).tail := by
  induction bytes with
  | nil => exact absurd rfl hne
  | cons b bs ih =>
    have hb : b ≠ 10 := (List.ne_of_not_mem_cons hbytes).symm
    rw [List.cons_append, inputLines, if_neg hb]
    cases bs with
    | nil =>
      rw [List.nil_append]
      cases inputLines rest <;> rfl
    | cons b' bs =>
      rw [ih (List.cons_ne_nil _ _) (List.not_mem_of_not_mem_cons hbytes)]
      rfl

/-- A line is cut off at its line feed, or at the end of the input. -/
theorem inputLines_line_append {line rest : List UInt8} (hne : line ≠ [])
    (hline : 10 ∉ line.dropLast) (hend : rest = [] ∨ line.getLast? = some 10) :
    inputLines (line ++ rest) = line :: inputLines rest := by
  by_cases hmem : 10 ∈ line
  · -- the line feed can only be the last byte
    have hlast : line = line.dropLast ++ [10] := by
      rw [← List.dropLast_concat_getLast hne, List.mem_append, List.mem_singleton] at hmem
      conv_lhs => rw [← List.dropLast_concat_getLast hne, ← hmem.resolve_left hline]
    rw [hlast, List.append_assoc]
    cases hinit : line.dropLast with
    | nil => rfl
    | cons b bs =>
      rw [inputLines_append (List.cons_ne_nil _ _) (hinit ▸ hline)]
      rfl
  · have hrest : rest = [] := hend.resolve_right fun h => hmem (List.mem_of_getLast? h)
    rw [hrest, inputLines_append hne hmem]
    exact congrArg (· :: []) (List.append_nil _)

/-- Every input has exactly one cut. -/
theorem isCut_iff {input : List UInt8} {lines : List (List UInt8)} :
    IsCut input lines ↔ lines = inputLines input := by
  constructor
  · intro h
    induction lines generalizing input with
    | nil =>
      rw [← h.flatten_eq]
      rfl
    | cons line lines ih =>
      obtain ⟨rest, rfl, hne, hline, hend, hrest⟩ := isCut_cons_iff.mp h
      rw [inputLines_line_append hne hline (hend.imp_left ?_), ← ih hrest]
      rintro rfl
      exact hrest.flatten_eq.symm
  · rintro rfl
    fun_induction inputLines input with
    | case1 => exact .nil
    | case2 bs ih =>
      exact isCut_cons_iff.mpr
        ⟨bs, rfl, List.cons_ne_nil _ _, List.not_mem_nil, .inr rfl, ih⟩
    | case3 b bs hb hbs ih =>
      have hnil : bs = [] := by rw [← ih.flatten_eq, hbs]; rfl
      exact isCut_cons_iff.mpr
        ⟨[], by rw [hnil]; rfl, List.cons_ne_nil _ _, List.not_mem_nil, .inl rfl, .nil⟩
    | case4 b bs hb line lines hbs ih =>
      rw [hbs] at ih
      obtain ⟨rest, rfl, hne, hline, hend, hrest⟩ := isCut_cons_iff.mp ih
      refine isCut_cons_iff.mpr ⟨rest, rfl, List.cons_ne_nil _ _, ?_, ?_, hrest⟩
      · rw [List.dropLast_cons_of_ne_nil hne]
        exact List.not_mem_cons_of_ne_of_not_mem (Ne.symm hb) hline
      · rwa [List.getLast?_cons_of_ne_nil hne]

/-- The lines are text exactly if the input is. -/
theorem exists_texts_iff {input : List UInt8} :
    (∃ texts : List String, inputLines input = texts.map encode) ↔
      ∃ text, encode text = input := by
  constructor
  · rintro ⟨texts, htexts⟩
    refine ⟨String.ofList (texts.flatMap String.toList), ?_⟩
    rw [← flatten_inputLines input, htexts, encode, String.toList_ofList, List.flatMap_assoc]
    exact List.flatMap_def
  · rintro ⟨text, rfl⟩
    rw [encode]
    induction text.toList with
    | nil => exact ⟨[], rfl⟩
    | cons c cs ih =>
      obtain ⟨texts, htexts⟩ := ih
      rw [List.flatMap_cons]
      by_cases hc : 10 ∈ String.utf8EncodeChar c
      · refine ⟨"\n" :: texts, ?_⟩
        rw [eq_lineFeed_of_mem hc, List.map_cons, ← htexts]
        rfl
      · -- the character stands in front of the next line
        refine ⟨String.ofList (c :: (texts.headD "").toList) :: texts.tail, ?_⟩
        rw [inputLines_append String.utf8EncodeChar_ne_nil hc, htexts, List.map_cons, encode,
          String.toList_ofList, List.flatMap_cons]
        cases texts <;> rfl

/-! ### Answers -/

/-- What is written to the standard output about lines: a prompt for each, and its output if there
is one. -/
def answers (mode : Mode) (texts : List String) : String :=
  String.join (texts.map fun text =>
    "> " ++
      if "Error: ".toList <+: (mode.render depthLimit text).toList then ""
      else mode.render depthLimit text ++ "\n")

/-- What is written to the standard error about lines: those texts that are failures. -/
def failures (mode : Mode) (texts : List String) : String :=
  String.join (texts.map fun text =>
    if "Error: ".toList <+: (mode.render depthLimit text).toList then
      mode.render depthLimit text ++ "\n"
    else "")

theorem answers_cons (mode : Mode) (text : String) (texts : List String) :
    answers mode (text :: texts) = answers mode [text] ++ answers mode texts := by
  rw [answers, answers, answers, List.map_cons, List.map_singleton, String.join_cons,
    String.join_cons, String.join_nil, String.append_empty]

theorem failures_cons (mode : Mode) (text : String) (texts : List String) :
    failures mode (text :: texts) = failures mode [text] ++ failures mode texts := by
  rw [failures, failures, failures, List.map_cons, List.map_singleton, String.join_cons,
    String.join_cons, String.join_nil, String.append_empty]

/-- A step: a line that is text is answered, and the interaction goes on. -/
theorem interact_encode_cons (mode : Mode) (text : String) (lines : List (List UInt8)) :
    interact mode (encode text :: lines) =
      ⟨(interact mode lines).code, answers mode [text] ++ (interact mode lines).stdout,
        failures mode [text] ++ (interact mode lines).stderr⟩ := by
  have hdecode : decode (encode text) = .ok text := decode_eq_ok_iff.mpr rfl
  rw [interact, reply, hdecode, answers, failures]
  dsimp only [List.map]
  rw [String.join_cons, String.join_cons, String.join_nil, String.append_empty,
    String.append_empty, report]
  by_cases hfailure : "Error: ".toList <+: (mode.render depthLimit text).toList
  · rw [if_pos (isFailure_iff.mpr hfailure), if_pos hfailure, if_pos hfailure]
    simp [Response.followedBy, prompt, Response.out]
  · rw [if_neg (mt isFailure_iff.mp hfailure), if_neg hfailure, if_neg hfailure]
    simp [Response.followedBy, prompt, Response.out, String.append_assoc]

/-- A run: lines that are text are answered in turn. -/
theorem interact_texts_append (mode : Mode) (texts : List String) (lines : List (List UInt8)) :
    interact mode (texts.map encode ++ lines) =
      ⟨(interact mode lines).code, answers mode texts ++ (interact mode lines).stdout,
        failures mode texts ++ (interact mode lines).stderr⟩ := by
  induction texts with
  | nil =>
    rw [List.map_nil, List.nil_append, answers, failures, List.map_nil, List.map_nil,
      String.join_nil, String.empty_append, String.empty_append]
  | cons text texts ih =>
    rw [List.map_cons, List.cons_append, interact_encode_cons, ih, answers_cons mode text texts,
      failures_cons mode text texts, String.append_assoc, String.append_assoc]

/-- What is written when a line is not text. -/
def invalidData : String :=
  "Error: Error \x7b kind: InvalidData, message: \"stream did not contain valid UTF-8\" \x7d\n"

/-- A line that is not text ends the interaction, whatever follows. -/
theorem interact_cons_of_notText (mode : Mode) {line : List UInt8}
    (h : ∀ text, encode text ≠ line) (lines : List (List UInt8)) :
    interact mode (line :: lines) = ⟨1, "> ", invalidData⟩ := by
  rw [interact, reply, decode_eq_error h]
  rfl

/-- All lines are text: the interaction ends with the input, after a last prompt. -/
theorem interact_texts (mode : Mode) (texts : List String) :
    interact mode (texts.map encode) =
      ⟨0, answers mode texts ++ "> \n", failures mode texts⟩ := by
  have happend := interact_texts_append mode texts []
  rw [List.append_nil] at happend
  rw [happend]
  exact congrArg (Response.mk 0 _) String.append_empty

/-- A line is not text: what was written about the lines before it stays. -/
theorem interact_notText (mode : Mode) (before : List String) {bad : List UInt8}
    (hbad : ∀ text, encode text ≠ bad) (after : List (List UInt8)) :
    interact mode (before.map encode ++ bad :: after) =
      ⟨1, answers mode before ++ "> ", failures mode before ++ invalidData⟩ := by
  rw [interact_texts_append, interact_cons_of_notText mode hbad]

/-- Either all lines are text, or there is a first one that is not. -/
theorem texts_or_notText (lines : List (List UInt8)) :
    (∃ texts : List String, lines = texts.map encode) ∨
      ∃ (before : List String) (bad : List UInt8) (after : List (List UInt8)),
        lines = before.map encode ++ bad :: after ∧ ∀ text, encode text ≠ bad := by
  induction lines with
  | nil => exact .inl ⟨[], rfl⟩
  | cons line lines ih =>
    by_cases hline : ∃ text, encode text = line
    · obtain ⟨text, rfl⟩ := hline
      rcases ih with ⟨texts, rfl⟩ | ⟨before, bad, after, rfl, hbad⟩
      · exact .inl ⟨text :: texts, rfl⟩
      · exact .inr ⟨text :: before, bad, after, rfl, hbad⟩
    · exact .inr ⟨[], line, lines, rfl, not_exists.mp hline⟩

/-- **The interactive program.** The input is cut after each line feed, in the only way. If all
lines are text, each is answered after a prompt, failures are reported apart, and the program ends
well after a last prompt. Else the lines before the first one that is not text are answered, and
the program fails after the prompt for that line. So it ends well exactly if the input is text.

The mode is given by its name, as the program is called with it; each mode has a name, by
`Mode.ofName_name`. -/
theorem Options.run_interactive (name : String)
    (files : String → Except ReadFailure (List UInt8)) (stdin : List UInt8) :
    ∃ lines, (∀ cut, IsCut stdin cut ↔ cut = lines) ∧
      ((∃ texts : List String, lines = texts.map encode ∧
          Options.run ⟨none, name⟩ files stdin =
            ⟨0, answers (Mode.ofName name) texts ++ "> \n", failures (Mode.ofName name) texts⟩) ∨
        ∃ (before : List String) (bad : List UInt8) (after : List (List UInt8)),
          lines = before.map encode ++ bad :: after ∧ (∀ text, encode text ≠ bad) ∧
          Options.run ⟨none, name⟩ files stdin =
            ⟨1, answers (Mode.ofName name) before ++ "> ",
              failures (Mode.ofName name) before ++ invalidData⟩) ∧
      ((Options.run ⟨none, name⟩ files stdin).code = 0 ↔ ∃ text, encode text = stdin) := by
  have hrun : Options.run ⟨none, name⟩ files stdin =
      interact (Mode.ofName name) (inputLines stdin) := rfl
  rw [hrun]
  refine ⟨inputLines stdin, fun _ => isCut_iff, ?_⟩
  rcases texts_or_notText (inputLines stdin) with
    ⟨texts, htexts⟩ | ⟨before, bad, after, hlines, hbad⟩
  · have hresponse := interact_texts (Mode.ofName name) texts
    rw [← htexts] at hresponse
    refine ⟨.inl ⟨texts, htexts, hresponse⟩, ?_⟩
    rw [hresponse]
    exact iff_of_true rfl (exists_texts_iff.mp ⟨texts, htexts⟩)
  · have hresponse := interact_notText (Mode.ofName name) before hbad after
    rw [← hlines] at hresponse
    refine ⟨.inr ⟨before, bad, after, hlines, hbad, hresponse⟩, ?_⟩
    rw [hresponse, ← exists_texts_iff, hlines]
    refine iff_of_false Nat.one_ne_zero fun ⟨texts, htexts⟩ => ?_
    have hmem : bad ∈ texts.map encode := htexts ▸ List.mem_append_right _ List.mem_cons_self
    obtain ⟨text, -, htext⟩ := List.mem_map.mp hmem
    exact hbad text htext

/-- The end of the input does not have to be the end of a line, and characters may have several
bytes, all of which have to be there. -/
theorem Options.run_interactive_unterminated :
    (Options.run ⟨none, "eval"⟩ (fun _ => .error .missing) [49, 10, 195, 169]).code = 0 ∧
      (Options.run ⟨none, "eval"⟩ (fun _ => .error .missing) [49, 10, 195]).code ≠ 0 := by
  obtain ⟨-, -, -, htext⟩ :=
    run_interactive "eval" (fun _ => .error .missing) [49, 10, 195, 169]
  obtain ⟨-, -, -, hnot⟩ := run_interactive "eval" (fun _ => .error .missing) [49, 10, 195]
  refine ⟨htext.mpr ⟨"1\né", rfl⟩, fun hcode => ?_⟩
  obtain ⟨text, henc⟩ := hnot.mp hcode
  have hdecode : decode [49, 10, 195] = .error .notText := by decide +kernel
  cases hdecode.symm.trans (decode_eq_ok_iff.mpr henc)

end CommandLine

end ArrowCalc
