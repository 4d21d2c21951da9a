import ArrowCalc.Expr.JavaScript
import ArrowCalc.Expr.Outline
import ArrowCalc.Proofs.Reference
import ArrowCalc.Proofs.WellFormed

/-!
# What the writers add

The JavaScript and the outline of a tree are written piece by piece on what is already there. Both
writers only add to it. What a tree adds depends on the tree and on the level, and not on what was
written before. A writer stops at the first malformed node from left to right, with the message of
that node, and it is back on the level on which it began.

So the texts of trees that are written one after the other are the texts of the trees, one behind
the other.

The text of a piece is not computed here. It is enough that there is one, as a function of the
level, and this is all that `Adds` says. Its shape is the subject of other files, which begin with
what is proved here.

## Main definitions

* `Expr.fault?` — the message of the first malformed node
* `Script.Adds`, `Outline.Adds` — what a writer does to what was written before
* `Outline.Shows` — the same, for a writer that adds at least one line
* `writeInTurn` — trees written one after the other

## Main results

* `Script.adds_write`, `Outline.shows_write` — both writers add to what was written
* `Expr.Fits.fault?_eq_none` — the trees of phrases have no malformed node
-/

namespace ArrowCalc

/-! ### Malformed nodes

The first malformed node is found by recursion on the tree, in the order in which the writers reach
the nodes. -/

mutual

/-- The message of the first malformed node of a tree, from left to right. -/
def Expr.fault? : Expr → Option String
  | .malformed message => some message
  | .block statements => faultOfEach? statements
  | .int _ => none
  | .binary _ left right => left.fault?.or right.fault?
  | .unary _ operand => operand.fault?
  | .paren inner => inner.fault?
  | .declare _ value => value.fault?
  | .var _ => none
  | .func _ body => body.fault?
  | .call callee args => callee.fault?.or (faultOfEach? args)

/-- The message of the first malformed node of a list of trees. -/
def Expr.faultOfEach? : List Expr → Option String
  | [] => none
  | e :: es => e.fault?.or (faultOfEach? es)

end

/-- There is no fault in a list exactly if there is none in its trees. -/
theorem Expr.faultOfEach?_eq_none_iff {es : List Expr} :
    faultOfEach? es = none ↔ ∀ e ∈ es, e.fault? = none := by
  induction es with
  | nil => simp [faultOfEach?]
  | cons e es ih => simp [faultOfEach?, ih]

/-- The trees of phrases have no malformed node. -/
theorem Expr.Fits.fault?_eq_none {layer : Grammar.Layer} {e : Expr} (h : e.Fits layer) :
    e.fault? = none := by
  induction h with
  | func _ _ ih => rwa [fault?]
  | declare _ _ ih => rwa [fault?]
  | sum _ _ _ ihleft ihright => rw [fault?, ihleft, ihright, Option.or_none]
  | product _ _ _ ihleft ihright => rw [fault?, ihleft, ihright, Option.or_none]
  | sign _ ih => rwa [fault?]
  | power _ _ ihbase ihexponent => rw [fault?, ihbase, ihexponent, Option.or_none]
  | call _ _ ihcallee ihargs =>
    rw [fault?, ihcallee, faultOfEach?_eq_none_iff.mpr ihargs, Option.or_none]
  | var _ => rw [fault?]
  | int _ => rw [fault?]
  | paren _ ih => rwa [fault?]
  | ofSum _ ih | ofProduct _ ih | ofSigned _ ih | ofPower _ ih | ofApplication _ ih
  | ofPrimary _ ih => exact ih

/-- How a writer ends that has met the fault, or none. -/
def ending {σ : Type} (fault? : Option String) (s : σ) : EStateM.Result Error σ Unit :=
  match fault? with
  | none => .ok () s
  | some message => .error (.malformed message) s

section Runs

variable {σ α : Type}

/-- What a run leaves behind, with or without success. -/
def afterRun : EStateM.Result Error σ α → σ
  | .ok _ s => s
  | .error _ s => s

@[simp] theorem afterRun_ending (fault? : Option String) (s : σ) :
    afterRun (ending fault? s) = s := by
  cases fault? <;> rfl

/-- Writes trees one after the other, whatever becomes of each of them. -/
def writeInTurn (write : Expr → EStateM Error σ Unit) (s : σ) (es : List Expr) : σ :=
  es.foldl (fun s e => afterRun (write e s)) s

end Runs

/-! ### Scripts

A writer that fails leaves behind what it has written up to there. So `Adds` speaks of both ends,
and the pieces of a sequence are put together up to the first fault. -/

namespace Script

/-- Whatever was written before, the writer adds a text that depends on the level alone. It ends
with the fault, if there is one, and on the level on which it began. -/
def Adds (w : Writer Unit) (fault? : Option String) : Prop :=
  ∃ piece : ℕ → String, ∀ s, w s = ending fault? { s with out := s.out ++ piece s.level }

section Adds

variable {w w' : Writer Unit} {fault? fault?' : Option String}

theorem Adds.bind (h : Adds w fault?) (h' : Adds w' fault?') :
    Adds (do w; w') (fault?.or fault?') := by
  obtain ⟨piece, hrun⟩ := h
  obtain ⟨piece', hrun'⟩ := h'
  cases fault? with
  | none =>
    refine ⟨fun level => piece level ++ piece' level, fun s => ?_⟩
    rw [bind_of_ok (hrun s), hrun', String.append_assoc]
    rfl
  | some message =>
    -- the second writer does not run, so its piece is left out
    exact ⟨piece, fun s => bind_of_error (hrun s)⟩

/-- What is put behind a tree has no fault of its own. -/
theorem Adds.bind_none (h : Adds w fault?) (h' : Adds w' none) : Adds (do w; w') fault? := by
  have hbind := h.bind h'
  rwa [Option.or_none] at hbind

theorem adds_pure : Adds (pure ()) none := by
  refine ⟨fun _ => "", fun s => ?_⟩
  rw [String.append_empty]
  rfl

theorem adds_throw (message : String) : Adds (throw (.malformed message)) (some message) := by
  refine ⟨fun _ => "", fun s => ?_⟩
  rw [String.append_empty]
  rfl

theorem adds_put (text : String) : Adds (put text) none := ⟨fun _ => text, fun _ => rfl⟩

theorem adds_indent : Adds indent none :=
  ⟨fun level => String.ofList (List.replicate (2 * level) ' '), fun _ => rfl⟩

theorem Adds.nested (h : Adds w fault?) : Adds (nested w) fault? := by
  obtain ⟨piece, hrun⟩ := h
  refine ⟨fun level => piece (level + 1), fun s => ?_⟩
  rw [Script.nested, hrun]
  cases fault? <;> rfl

/-- The text is written on an empty script first, so it is clear what it begins with. -/
theorem Adds.afterMinus (h : Adds w fault?) : Adds (afterMinus w) fault? := by
  obtain ⟨piece, hrun⟩ := h
  cases fault? with
  | none =>
    refine ⟨fun level =>
      (if (piece level).front? = some '-' then " " else "") ++ piece level, fun s => ?_⟩
    rw [Script.afterMinus, hrun]
    simp only [ending, String.empty_append, String.append_assoc]
  | some message =>
    refine ⟨piece, fun s => ?_⟩
    rw [Script.afterMinus, hrun]
    simp only [ending, String.empty_append]

end Adds

/-- Powers and differences are written in their own way, and the other operators alike. -/
theorem write_operator {op : BinaryOp} (hpow : op ≠ .pow) (hsub : op ≠ .sub) (bare : Bool)
    (left right : Expr) : write bare (.binary op left right) =
      (do write false left; put op.symbol; write false right) := by
  rw [write]
  · exact hpow
  · exact hsub

mutual

/-- **Scripts.** What a tree adds to a script depends on the tree and on the level. -/
theorem adds_write (bare : Bool) : ∀ e : Expr, Adds (write bare e) e.fault?
  | .malformed message => by
    rw [write, Expr.fault?]
    exact adds_throw message
  | .block statements => by
    rw [write, Expr.fault?]
    exact adds_writeStatements statements
  | .int value => by
    rw [write, Expr.fault?]
    exact adds_put _
  | .binary op left right => by
    rw [Expr.fault?]
    cases op with
    | pow =>
      rw [write]
      have hright := (adds_write true right).bind_none (adds_put ")")
      exact (adds_put _).bind ((adds_write true left).bind ((adds_put ", ").bind hright))
    | sub =>
      rw [write]
      exact (adds_write false left).bind ((adds_put "-").bind (adds_write false right).afterMinus)
    | _ =>
      rw [write_operator (by decide) (by decide)]
      exact (adds_write false left).bind ((adds_put _).bind (adds_write false right))
  | .unary .plus operand => by
    rw [write, Expr.fault?]
    exact adds_write false operand
  | .unary .minus operand => by
    rw [write, Expr.fault?]
    exact (adds_put "-").bind (adds_write false operand).afterMinus
  | .paren inner => by
    rw [write, Expr.fault?]
    split
    · exact adds_write false inner
    · exact (adds_put "(").bind ((adds_write false inner).bind_none (adds_put ")"))
  | .declare name value => by
    rw [write, Expr.fault?]
    exact (adds_put _).bind (adds_write false value)
  | .var name => by
    rw [write, Expr.fault?]
    exact adds_put name
  | .func params body => by
    rw [write, Expr.fault?]
    have hbody := (adds_write false body).bind_none (adds_put ";\n")
    have hnested := (adds_indent.bind ((adds_put "return ").bind hbody)).nested
    exact (adds_put _).bind (hnested.bind_none (adds_indent.bind (adds_put _)))
  | .call callee args => by
    rw [write, Expr.fault?]
    have hargs := (adds_writeArgs args).bind_none (adds_put ")")
    exact (adds_write false callee).bind ((adds_put "(").bind hargs)

theorem adds_writeStatements : ∀ es : List Expr, Adds (writeStatements es) (Expr.faultOfEach? es)
  | [] => by
    rw [writeStatements, Expr.faultOfEach?]
    exact adds_pure
  | e :: es => by
    rw [writeStatements, Expr.faultOfEach?]
    have hrest := (adds_put ";\n").bind (adds_writeStatements es)
    exact adds_indent.bind ((adds_write false e).bind hrest)

theorem adds_writeArgs : ∀ es : List Expr, Adds (writeArgs es) (Expr.faultOfEach? es)
  | [] => by
    rw [writeArgs, Expr.faultOfEach?]
    exact adds_pure
  | e :: es => by
    rw [writeArgs, Expr.faultOfEach?]
    exact (adds_write false e).bind (adds_writeMoreArgs es)

theorem adds_writeMoreArgs : ∀ es : List Expr, Adds (writeMoreArgs es) (Expr.faultOfEach? es)
  | [] => by
    rw [writeMoreArgs, Expr.faultOfEach?]
    exact adds_pure
  | e :: es => by
    rw [writeMoreArgs, Expr.faultOfEach?]
    exact (adds_put ", ").bind ((adds_write false e).bind (adds_writeMoreArgs es))

end

/-- The last statement ends its line. -/
theorem exists_writeStatements_eq {es : List Expr} (hne : es ≠ []) :
    ∃ w, Adds w (Expr.faultOfEach? es) ∧ writeStatements es = (do w; put ";\n") := by
  induction es with
  | nil => exact absurd rfl hne
  | cons e es ih =>
    rw [writeStatements, Expr.faultOfEach?]
    by_cases hes : es = []
    · rw [hes, Expr.faultOfEach?, Option.or_none, writeStatements]
      exact ⟨do indent; write false e, adds_indent.bind (adds_write false e), rfl⟩
    · obtain ⟨w, hw, heq⟩ := ih hes
      refine ⟨do indent; write false e; put ";\n"; w, ?_, ?_⟩
      · exact adds_indent.bind ((adds_write false e).bind ((adds_put _).bind hw))
      · simp only [heq, bind_assoc]

/-- Statements without a fault are written, and end with a semicolon and a line feed. -/
theorem exists_run_writeStatements {es : List Expr} (hne : es ≠ [])
    (h : Expr.faultOfEach? es = none) : ∃ piece : ℕ → String, ∀ s, writeStatements es s =
      .ok () { s with out := s.out ++ (piece s.level ++ ";\n") } := by
  obtain ⟨w, hw, heq⟩ := exists_writeStatements_eq hne
  rw [h] at hw
  obtain ⟨piece, hrun⟩ := hw
  refine ⟨piece, fun s => ?_⟩
  rw [heq, bind_of_ok (hrun s), ← String.append_assoc]
  rfl

/-- Statements are written one after the other. -/
theorem writeStatements_append (es fs : List Expr) :
    writeStatements (es ++ fs) = (do writeStatements es; writeStatements fs) := by
  induction es with
  | nil => rw [writeStatements, pure_bind, List.nil_append]
  | cons e es ih => simp only [List.cons_append, writeStatements, ih, bind_assoc]

end Script

/-! ### Outlines

The same for outlines, which are lists of lines. A node always has a line of its own, so `Shows` can
be proved of it, whereas a list of trees may be empty. -/

namespace Outline

/-- Whatever was written before, the writer adds lines that depend on the level alone. It ends with
the fault, if there is one, and on the level on which it began. -/
def Adds (w : Writer Unit) (fault? : Option String) : Prop :=
  ∃ added : ℕ → List String, ∀ o,
    w o = ending fault? { o with lines := o.lines ++ (added o.level).toArray }

section Adds

variable {w w' : Writer Unit} {fault? fault?' : Option String}

theorem Adds.bind (h : Adds w fault?) (h' : Adds w' fault?') :
    Adds (do w; w') (fault?.or fault?') := by
  obtain ⟨added, hrun⟩ := h
  obtain ⟨added', hrun'⟩ := h'
  cases fault? with
  | none =>
    refine ⟨fun level => added level ++ added' level, fun o => ?_⟩
    rw [bind_of_ok (hrun o), hrun', ← List.append_toArray, Array.append_assoc]
    rfl
  | some message => exact ⟨added, fun o => bind_of_error (hrun o)⟩

theorem adds_pure : Adds (pure ()) none := ⟨fun _ => [], fun o => by rw [Array.append_empty]; rfl⟩

theorem Adds.nested (h : Adds w fault?) : Adds (nested w) fault? := by
  obtain ⟨added, hrun⟩ := h
  refine ⟨fun level => added (level + 1), fun o => ?_⟩
  rw [Outline.nested, hrun]
  cases fault? <;> rfl

/-- A writer that adds lines, and at least one if there is no fault. -/
def Shows (w : Writer Unit) (fault? : Option String) : Prop :=
  ∃ added : ℕ → List String, (fault? = none → ∀ level, added level ≠ []) ∧
    ∀ o, w o = ending fault? { o with lines := o.lines ++ (added o.level).toArray }

theorem Shows.adds (h : Shows w fault?) : Adds w fault? :=
  h.imp fun _ => And.right

theorem shows_line (text : String) : Shows (line text) none := by
  refine ⟨fun level => [String.ofList (List.replicate level ' ') ++ text], ?_, fun o => ?_⟩
  · exact fun _ level => List.cons_ne_nil _ _
  · rw [Array.append_singleton]
    rfl

theorem Shows.bind (h : Shows w none) (h' : Adds w' fault?) : Shows (do w; w') fault? := by
  obtain ⟨added, hne, hrun⟩ := h
  obtain ⟨added', hrun'⟩ := h'
  refine ⟨fun level => added level ++ added' level, ?_, fun o => ?_⟩
  · exact fun _ level => List.append_ne_nil_of_left_ne_nil (hne rfl level) _
  · rw [bind_of_ok (hrun o), hrun', ← List.append_toArray, Array.append_assoc]

theorem shows_throw (message : String) : Shows (throw (.malformed message)) (some message) :=
  ⟨fun _ => [], fun h => absurd h (Option.some_ne_none message),
    fun o => by rw [Array.append_empty]; rfl⟩

end Adds

mutual

/-- **Outlines.** What a tree adds to an outline depends on the tree and on the level. -/
theorem shows_write : ∀ e : Expr, Shows (write e) e.fault?
  | .malformed message => by
    rw [write, Expr.fault?]
    exact shows_throw message
  | .block statements => by
    rw [write, Expr.fault?]
    exact (shows_line _).bind (adds_writeAll statements).nested
  | .int value => by
    rw [write, Expr.fault?]
    exact shows_line _
  | .binary op left right => by
    rw [write, Expr.fault?]
    exact (shows_line _).bind ((shows_write left).adds.bind (shows_write right).adds).nested
  | .unary op operand => by
    rw [write, Expr.fault?]
    exact (shows_line _).bind (shows_write operand).adds.nested
  | .paren inner => by
    rw [write, Expr.fault?]
    exact (shows_line _).bind (shows_write inner).adds.nested
  | .declare name value => by
    rw [write, Expr.fault?]
    exact (shows_line _).bind (shows_write value).adds.nested
  | .var name => by
    rw [write, Expr.fault?]
    exact shows_line _
  | .func params body => by
    rw [write, Expr.fault?]
    exact (shows_line _).bind (shows_write body).adds.nested
  | .call callee args => by
    rw [write, Expr.fault?]
    exact (shows_line _).bind ((shows_write callee).adds.bind (adds_writeAll args)).nested

theorem adds_writeAll : ∀ es : List Expr, Adds (writeAll es) (Expr.faultOfEach? es)
  | [] => by
    rw [writeAll, Expr.faultOfEach?]
    exact adds_pure
  | e :: es => by
    rw [writeAll, Expr.faultOfEach?]
    exact (shows_write e).adds.bind (adds_writeAll es)

end

/-- Trees without a fault are written, and have at least one line. -/
theorem exists_run_writeAll {es : List Expr} (hne : es ≠ []) (h : Expr.faultOfEach? es = none) :
    ∃ added : ℕ → List String, (∀ level, added level ≠ []) ∧ ∀ o, writeAll es o =
      .ok () { o with lines := o.lines ++ (added o.level).toArray } := by
  cases es with
  | nil => exact absurd rfl hne
  | cons e es =>
    rw [Expr.faultOfEach?, Option.or_eq_none_iff] at h
    have hfirst := shows_write e
    have hrest := adds_writeAll es
    rw [h.1] at hfirst
    rw [h.2] at hrest
    obtain ⟨added, hadded, hrun⟩ := hfirst.bind hrest
    refine ⟨added, hadded rfl, fun o => ?_⟩
    rw [writeAll]
    exact hrun o

/-- Trees are written one below the other. -/
theorem writeAll_append (es fs : List Expr) :
    writeAll (es ++ fs) = (do writeAll es; writeAll fs) := by
  induction es with
  | nil => rw [writeAll, pure_bind, List.nil_append]
  | cons e es ih => simp only [List.cons_append, writeAll, ih, bind_assoc]

end Outline

end ArrowCalc
