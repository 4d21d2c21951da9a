import ArrowCalc.Proofs.Writers

/-!
# The nodes of a tree

The nodes of a tree stand in a row, from the root down and from left to right. The row begins with
the root, and behind it stand the nodes of the trees right below the root. All that is done here
with a tree as a whole follows this order, so one equation and one induction rule are enough, and
none of the constructors of `Expr` is looked at again.

## Main definitions

* `Expr.children` — the trees right below the root
* `Expr.nodes`, `Expr.preorder` — the nodes in a row, with and without their depths

## Main results

* `Expr.children_induction` — what is inherited from the children holds of all trees
* `Expr.fault?_eq_findSome?` — the fault of a tree is that of the first malformed node
-/

namespace ArrowCalc

namespace Expr

/-! ### Children -/

/-- The trees right below the root, from left to right. -/
def children : Expr → List Expr
  | malformed _ | int _ | var _ => []
  | block statements => statements
  | binary _ left right => [left, right]
  | unary _ operand => [operand]
  | paren inner => [inner]
  | declare _ value => [value]
  | func _ body => [body]
  | call callee args => callee :: args

theorem sizeOf_lt_of_mem_children {e child : Expr} (h : child ∈ e.children) :
    sizeOf child < sizeOf e := by
  cases e with
  | malformed | int | var => cases h
  | block statements =>
    have hlt : sizeOf child < sizeOf statements := List.sizeOf_lt_of_mem h
    simp only [block.sizeOf_spec]
    omega
  | binary op left right =>
    simp only [binary.sizeOf_spec]
    rcases List.mem_pair.mp h with rfl | rfl <;> omega
  | unary | paren | declare | func =>
    rw [List.mem_singleton.mp h]
    simp only [unary.sizeOf_spec, paren.sizeOf_spec, declare.sizeOf_spec, func.sizeOf_spec]
    omega
  | call callee args =>
    simp only [call.sizeOf_spec]
    rcases List.mem_cons.mp h with rfl | harg
    · omega
    · have hlt := List.sizeOf_lt_of_mem harg
      omega

/-- What is inherited from the children holds of all trees. -/
theorem children_induction {P : Expr → Prop} (h : ∀ e, (∀ child ∈ e.children, P child) → P e)
    (e : Expr) : P e :=
  h e fun child _ => children_induction h child
termination_by sizeOf e
decreasing_by exact sizeOf_lt_of_mem_children ‹_›

/-! ### Nodes -/

mutual

/-- The nodes of a tree, from the root down and from left to right, each with its depth. The root
has the depth `depth`. -/
def nodes (depth : ℕ) : Expr → List (ℕ × Expr)
  | malformed message => [(depth, malformed message)]
  | block statements => (depth, block statements) :: nodesOfEach (depth + 1) statements
  | int value => [(depth, int value)]
  | binary op left right =>
    (depth, binary op left right) :: (nodes (depth + 1) left ++ nodes (depth + 1) right)
  | unary op operand => (depth, unary op operand) :: nodes (depth + 1) operand
  | paren inner => (depth, paren inner) :: nodes (depth + 1) inner
  | declare name value => (depth, declare name value) :: nodes (depth + 1) value
  | var name => [(depth, var name)]
  | func params body => (depth, func params body) :: nodes (depth + 1) body
  | call callee args =>
    (depth, call callee args) :: (nodes (depth + 1) callee ++ nodesOfEach (depth + 1) args)

/-- The nodes of trees, one tree after the other. -/
def nodesOfEach (depth : ℕ) : List Expr → List (ℕ × Expr)
  | [] => []
  | e :: es => nodes depth e ++ nodesOfEach depth es

end

/-- The root comes first, and then the nodes of its children. -/
theorem nodes_eq (depth : ℕ) (e : Expr) :
    e.nodes depth = (depth, e) :: nodesOfEach (depth + 1) e.children := by
  cases e <;> simp [nodes, nodesOfEach, children]

theorem nodesOfEach_eq_flatMap (depth : ℕ) (es : List Expr) :
    nodesOfEach depth es = es.flatMap (nodes depth) := by
  induction es with
  | nil => rfl
  | cons e es ih => rw [nodesOfEach, ih, List.flatMap_cons]

/-- The nodes of a tree, from the root down and from left to right. -/
def preorder (e : Expr) : List Expr := (e.nodes 0).map Prod.snd

/-- Depths count from wherever one likes. -/
theorem map_snd_nodes (e : Expr) (depth : ℕ) : (e.nodes depth).map Prod.snd = e.preorder := by
  induction e using children_induction generalizing depth with
  | h e ih =>
    have hchildren : ∀ d d', (e.children.flatMap (nodes d)).map Prod.snd =
        (e.children.flatMap (nodes d')).map Prod.snd := by
      intro d d'
      simp only [List.map_flatMap]
      refine List.flatMap_congr fun child hchild => ?_
      rw [ih child hchild d, ih child hchild d']
    rw [preorder, nodes_eq, nodes_eq, nodesOfEach_eq_flatMap, nodesOfEach_eq_flatMap,
      List.map_cons, List.map_cons, hchildren]

theorem preorder_eq (e : Expr) : e.preorder = e :: e.children.flatMap preorder := by
  rw [preorder, nodes_eq, nodesOfEach_eq_flatMap, List.map_cons, List.map_flatMap]
  simp only [map_snd_nodes]

/-! ### Malformed nodes -/

/-- The message of a malformed root. -/
def message? : Expr → Option String
  | malformed message => some message
  | _ => none

theorem message?_eq_some_iff {e : Expr} {message : String} :
    e.message? = some message ↔ e = malformed message := by
  cases e <;> simp [message?]

theorem fault?_eq (e : Expr) : e.fault? = e.message?.or (faultOfEach? e.children) := by
  cases e <;> simp [fault?, faultOfEach?, message?, children]

theorem faultOfEach?_eq_findSome? {es : List Expr}
    (h : ∀ e ∈ es, ∀ depth, e.fault? = (e.nodes depth).findSome? (·.2.message?)) (depth : ℕ) :
    faultOfEach? es = (nodesOfEach depth es).findSome? (·.2.message?) := by
  induction es with
  | nil => rfl
  | cons e es ih =>
    obtain ⟨he, hes⟩ := List.forall_mem_cons.mp h
    rw [faultOfEach?, nodesOfEach, List.findSome?_append, ← he depth, ih hes]

/-- The fault of a tree is that of the first malformed node. -/
theorem fault?_eq_findSome? (e : Expr) (depth : ℕ) :
    e.fault? = (e.nodes depth).findSome? (·.2.message?) := by
  induction e using children_induction generalizing depth with
  | h e ih =>
    rw [fault?_eq, nodes_eq, List.findSome?_cons, faultOfEach?_eq_findSome? ih (depth + 1)]
    cases e.message? <;> rfl

theorem fault?_eq_findSome?_preorder (e : Expr) : e.fault? = e.preorder.findSome? message? := by
  rw [preorder, List.findSome?_map, fault?_eq_findSome? e 0]
  rfl

theorem findSome?_message?_eq_none_iff {es : List Expr} :
    es.findSome? message? = none ↔ ∀ message, malformed message ∉ es := by
  rw [List.findSome?_eq_none_iff]
  constructor
  · intro h message hmem
    cases h _ hmem
  · intro h e he
    rw [Option.eq_none_iff_forall_ne_some]
    intro message hmessage
    rw [message?_eq_some_iff] at hmessage
    exact h message (hmessage ▸ he)

/-- A tree has no fault if none of its nodes is malformed. -/
theorem fault?_eq_none_iff {e : Expr} :
    e.fault? = none ↔ ∀ message, malformed message ∉ e.preorder := by
  rw [fault?_eq_findSome?_preorder, findSome?_message?_eq_none_iff]

/-- Otherwise it is the message of the malformed node before which there is none. -/
theorem fault?_eq_some_of_preorder {e : Expr} {before behind : List Expr} {message : String}
    (h : e.preorder = before ++ malformed message :: behind)
    (hbefore : ∀ m, malformed m ∉ before) : e.fault? = some message := by
  rw [fault?_eq_findSome?_preorder, h, List.findSome?_append,
    findSome?_message?_eq_none_iff.mpr hbefore]
  rfl

end Expr

end ArrowCalc
