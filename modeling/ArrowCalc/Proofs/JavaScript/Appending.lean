import ArrowCalc.Proofs.Writers

/-!
# Scripts only grow

What a tree adds to a script is what it writes on a script without text, on the same level. The text
that is already there is neither read nor changed. This is so too when the tree is malformed and the
writer stops half-way.

The blank between two minus signs is the delicate point, since whether there is one is clear only
when the operand is written. `Script.afterMinus` writes the operand apart. One can also write it at
once and put in the blank afterwards, in the middle of the text (`Script.insertingBlank`). For trees
the two are the same: an operand begins where the script ended before, however many blanks were put
into it on the way.

## Main definitions

* `Script.emitted` — what a tree writes on a script without text
* `Script.insertingBlank` — a writer that changes the text in the middle

## Main results

* `Script.Adds.eq_ending` — what a writer does to any script
* `Script.Adds.afterMinus_eq` — the blank may be put in afterwards
* `Script.write_appends` — scripts only grow, by texts that do not depend on each other
-/

namespace ArrowCalc

namespace Script

/-! ### The blank behind a minus sign -/

/-- Puts a blank in at a place where a minus sign stands. -/
def insertBlank (start : ℕ) (s : Script) : Script :=
  if (s.out.toList.drop start).head? = some '-' then
    { s with out := String.ofList (s.out.toList.take start ++ ' ' :: s.out.toList.drop start) }
  else s

/-- Writes an operand behind what is there, and then puts in the blank where the operand begins. -/
def insertingBlank (operand : Writer Unit) : Writer Unit := do
  let start := (← get).out.length
  operand
  modify (insertBlank start)

/-- What stands before the place stays as it is. -/
theorem insertBlank_append (out piece : String) (level : ℕ) :
    insertBlank out.length ⟨out ++ piece, level⟩ =
      ⟨out ++ (if piece.front? = some '-' then " " else "") ++ piece, level⟩ := by
  have hlength : out.length = out.toList.length := String.length_toList.symm
  simp only [insertBlank, hlength, String.toList_append, List.drop_left, List.take_left,
    String.front?_eq]
  split
  · simp [← String.toList_inj]
  · simp

section Adds

variable {w : Writer Unit} {fault? : Option String}

/-- For a writer that only adds, it does not matter when the blank is put in. -/
theorem Adds.afterMinus_eq (h : Adds w fault?) : Script.afterMinus w = insertingBlank w := by
  obtain ⟨piece, hrun⟩ := h
  funext s
  have hget : (get : Writer Script) s = .ok s s := rfl
  rw [Script.afterMinus, hrun, insertingBlank, bind_of_ok hget]
  cases fault? with
  | none =>
    rw [bind_of_ok (hrun s)]
    show _ = EStateM.Result.ok () (insertBlank s.out.length ⟨s.out ++ piece s.level, s.level⟩)
    simp [insertBlank_append, ending]
  | some message =>
    rw [bind_of_error (hrun s)]
    simp [ending]

/-! ### What is added -/

/-- A writer that adds a text adds the one that it writes on a script without text. -/
theorem Adds.eq_ending (h : Adds w fault?) (s : Script) :
    w s = ending fault? { s with out := s.out ++ (afterRun (w ⟨"", s.level⟩)).out } := by
  obtain ⟨piece, hrun⟩ := h
  simp [hrun]

end Adds

/-- What a tree writes on a script without text. -/
def emitted (level : ℕ) (e : Expr) : String := (afterRun (write false e ⟨"", level⟩)).out

/-- Trees in turn write their texts one behind the other. -/
theorem writeInTurn_eq (s : Script) (es : List Expr) :
    writeInTurn (write false) s es =
      { s with out := s.out ++ String.join (es.map (emitted s.level)) } := by
  induction es generalizing s with
  | nil => simp [writeInTurn]
  | cons e es ih =>
    have hfirst : afterRun (write false e s) = { s with out := s.out ++ emitted s.level e } := by
      rw [(adds_write false e).eq_ending s, afterRun_ending, emitted]
    calc writeInTurn (write false) s (e :: es)
        = writeInTurn (write false) (afterRun (write false e s)) es := rfl
      _ = { s with out := s.out ++ String.join ((e :: es).map (emitted s.level)) } := by
        rw [hfirst, ih, List.map_cons, String.join_cons, String.append_assoc]

/-- **Scripts only grow.** Whatever stands in a script, a tree is written behind it, and the level
is the same afterwards. The text depends on the level and the tree alone: it is what the tree writes
on a script without text, up to the first malformed node if there is one. It makes no difference
that the blanks between minus signs are put in when the operands are already written. So the text of
trees in turn, malformed or not, is made up of the texts that each of them writes alone. -/
theorem write_appends :
    (∀ (e : Expr) (s : Script),
      write false e s = ending e.fault? { s with out := s.out ++ emitted s.level e }) ∧
      (∀ (bare : Bool) (left right : Expr), write bare (.binary .sub left right) =
        do write false left; put "-"; insertingBlank (write false right)) ∧
      (∀ (bare : Bool) (operand : Expr), write bare (.unary .minus operand) =
        do put "-"; insertingBlank (write false operand)) ∧
      (∀ (s : Script) (es : List Expr), writeInTurn (write false) s es =
        { s with out := s.out ++ String.join (es.map (emitted s.level)) }) ∧
      ∀ es : List Expr, (writeInTurn (write false) .empty es).out =
        String.join (es.map fun e => (afterRun (write false e .empty)).out) := by
  refine ⟨fun e s => (adds_write false e).eq_ending s, fun bare left right => ?_,
    fun bare operand => ?_, writeInTurn_eq, fun es => ?_⟩
  · rw [write, (adds_write false right).afterMinus_eq]
  · rw [write, (adds_write false operand).afterMinus_eq]
  · rw [writeInTurn_eq]
    exact String.empty_append

end Script

end ArrowCalc
