import ArrowCalc.Proofs.Preorder

/-!
# Outlines list the nodes

An outline has one line for each node, in the order of the nodes and indented by their depths. If
there is a malformed node, the outline ends in front of it.

## Main definitions

* `Expr.label` — what the line of a node says
* `Outline.shown` — the lines of nodes up to the first malformed one

## Main results

* `Outline.write_eq_ending` — the lines that a tree adds are those of its nodes
* `Expr.outline_eq_intercalate` — the outline of a tree without malformed nodes
-/

namespace ArrowCalc

/-- What the line of the root says. A malformed root has no line. -/
def Expr.label : Expr → String
  | malformed _ => ""
  | block _ => "ExpList"
  | int value => "IntLit " ++ value.repr
  | binary op _ _ => "BinOp " ++ op.symbol
  | unary op _ => "UnOp " ++ op.symbol
  | paren _ => "Paren"
  | declare name _ => "VarDecl " ++ name
  | var name => "VarId " ++ name
  | func params _ => "FuncDecl (" ++ ", ".intercalate params ++ ")"
  | call _ _ => "FuncCall"

namespace Outline

theorem nested_pure : nested (pure ()) = pure () := by
  funext o
  rfl

/-- Every node is written in the same way: its own line, and its children one level deeper. -/
theorem write_eq {e : Expr} (h : e.message? = none) :
    write e = (do line e.label; nested (writeAll e.children)) := by
  cases e with
  | malformed message => cases h
  | _ => simp [write, writeAll, Expr.label, Expr.children, nested_pure]

/-! ### Lines of nodes -/

/-- The line of a node. -/
def lineOf (node : ℕ × Expr) : String := String.ofList (List.replicate node.1 ' ') ++ node.2.label

/-- The lines of nodes up to the first malformed one. -/
def shown (nodes : List (ℕ × Expr)) : List String :=
  (nodes.takeWhile (·.2.message?.isNone)).map lineOf

theorem shown_cons {node : ℕ × Expr} (h : node.2.message? = none) (nodes : List (ℕ × Expr)) :
    shown (node :: nodes) = lineOf node :: shown nodes := by
  simp [shown, h]

theorem shown_append {nodes : List (ℕ × Expr)} (h : nodes.findSome? (·.2.message?) = none)
    (more : List (ℕ × Expr)) : shown (nodes ++ more) = nodes.map lineOf ++ shown more := by
  rw [List.findSome?_eq_none_iff] at h
  have hpos : ∀ node ∈ nodes, node.2.message?.isNone = true := by
    intro node hnode
    simp [h node hnode]
  rw [shown, List.takeWhile_append_of_pos hpos, List.map_append, shown]

theorem shown_eq_map {nodes : List (ℕ × Expr)} (h : nodes.findSome? (·.2.message?) = none) :
    shown nodes = nodes.map lineOf := by
  simpa [shown] using shown_append h []

/-- What stands behind a malformed node is not shown. -/
theorem shown_append_of_some {nodes : List (ℕ × Expr)} {message : String}
    (h : nodes.findSome? (·.2.message?) = some message) (more : List (ℕ × Expr)) :
    shown (nodes ++ more) = shown nodes := by
  obtain ⟨before, node, behind, rfl, hnode, hbefore⟩ := List.findSome?_eq_some_iff.mp h
  have hpos : ∀ node ∈ before, node.2.message?.isNone = true := by
    intro node hnode
    simp [hbefore node hnode]
  simp [shown, List.takeWhile_append_of_pos hpos, hnode]

/-! ### The lines of a tree -/

/-- The line at the root is indented by the level. -/
theorem line_eq_ending (e : Expr) (o : Outline) :
    line e.label o = .ok () { o with lines := o.lines ++ #[lineOf (o.level, e)] } := by
  rw [Array.append_singleton]
  rfl

theorem nested_eq_ending {w : Writer Unit} {o : Outline} {fault? : Option String}
    {lines : Array String}
    (h : w { o with level := o.level + 1 } = ending fault? ⟨lines, o.level + 1⟩) :
    nested w o = ending fault? { o with lines := lines } := by
  rw [nested, h]
  cases fault? <;> rfl

/-- What children add, one after the other. -/
theorem writeAll_eq_ending {es : List Expr}
    (h : ∀ e ∈ es, ∀ o, write e o =
      ending e.fault? { o with lines := o.lines ++ (shown (e.nodes o.level)).toArray })
    (o : Outline) : writeAll es o = ending (Expr.faultOfEach? es)
      { o with lines := o.lines ++ (shown (Expr.nodesOfEach o.level es)).toArray } := by
  induction es generalizing o with
  | nil =>
    show (pure () : Writer Unit) o = .ok () { o with lines := o.lines ++ #[] }
    rw [Array.append_empty]
    rfl
  | cons e es ih =>
    obtain ⟨he, hes⟩ := List.forall_mem_cons.mp h
    rw [writeAll, Expr.faultOfEach?, Expr.nodesOfEach]
    have hfault := e.fault?_eq_findSome? o.level
    cases hmessage : e.fault? with
    | none =>
      have hfirst := he o
      rw [hmessage] at hfirst hfault
      rw [bind_of_ok hfirst, ih hes, shown_append hfault.symm, ← shown_eq_map hfault.symm,
        ← List.append_toArray, ← Array.append_assoc]
      rfl
    | some message =>
      have hfirst := he o
      rw [hmessage] at hfirst hfault
      rw [bind_of_error hfirst, shown_append_of_some hfault.symm]
      rfl

/-- **The lines of a tree.** A tree adds the lines of its nodes to an outline, up to the first
malformed node. -/
theorem write_eq_ending (e : Expr) (o : Outline) : write e o =
    ending e.fault? { o with lines := o.lines ++ (shown (e.nodes o.level)).toArray } := by
  induction e using Expr.children_induction generalizing o with
  | h e ih =>
    rw [Expr.fault?_eq, Expr.nodes_eq]
    cases hmessage : e.message? with
    | some message =>
      rw [Expr.message?_eq_some_iff] at hmessage
      subst hmessage
      show (throw (.malformed message) : Writer Unit) o =
        .error (.malformed message) { o with lines := o.lines ++ #[] }
      rw [Array.append_empty]
      rfl
    | none =>
      have hlines : o.lines ++
          (shown ((o.level, e) :: Expr.nodesOfEach (o.level + 1) e.children)).toArray =
          o.lines ++ #[lineOf (o.level, e)] ++
            (shown (Expr.nodesOfEach (o.level + 1) e.children)).toArray := by
        rw [shown_cons hmessage, List.toArray_cons, Array.append_assoc]
      rw [write_eq hmessage, bind_of_ok (line_eq_ending e o), hlines, Option.none_or]
      exact nested_eq_ending (writeAll_eq_ending ih _)

end Outline

/-- The outline of a tree without malformed nodes has the lines of all nodes. -/
theorem Expr.outline_eq_intercalate {e : Expr} (h : e.fault? = none) :
    e.outline = .ok ("\n".intercalate ((e.nodes 0).map Outline.lineOf)) := by
  have hshown := Outline.shown_eq_map ((e.fault?_eq_findSome? 0).symm.trans h)
  rw [outline, Outline.write_eq_ending, h]
  show Except.ok (Outline.text _) = _
  simp [Outline.text, Outline.empty, hshown]

end ArrowCalc
