import ArrowCalc.Proofs.Canonical
import ArrowCalc.Proofs.Outline.Listing

/-!
# Trees are read back from their outlines

An outline says nothing about where the children of a node end, except by the indentation of what
follows. This is enough. The lines are read from the last one upwards. What has been read so far is
a row of trees with their depths, and the children of a node are the trees at the beginning of the
row that are deeper than the node.

A line has to be told from the next one, the indentation from the label, and the parameters of a
function from each other. So names have to be plain: letters, digits and underscores, and at least
one of them.

## Main definitions

* `IsPlain`, `Expr.Legible` — plain names, and trees with plain names and without malformed nodes
* `Expr.ofLabel?` — the node with a label and children
* `Outline.attach`, `Expr.ofOutline?` — reading one more line, and reading an outline

## Main results

* `Expr.ofLabel?_label` — a label says all about a node but its children
* `Outline.gather_nodes` — the lines of a tree are gathered into the tree
* `Expr.outline_decodes` — a legible tree is read back from its outline
-/

namespace ArrowCalc

/-! ### Plain names

The names of a source are plain, but the theorem is about all trees, and a tree may have any string
for a name. With a line feed in a name, two trees can have the same outline. -/

/-- A letter, a digit or an underscore. -/
def isPlainChar (c : Char) : Bool := c.isAlphanum ∨ c = '_'

/-- The name is not empty and made up of letters, digits and underscores. -/
def IsPlain (name : String) : Prop := name ≠ "" ∧ name.toList.all isPlainChar

instance (name : String) : Decidable (IsPlain name) := inferInstanceAs (Decidable (_ ∧ _))

theorem IsPlain.notMem {name : String} (h : IsPlain name) {c : Char} (hc : isPlainChar c = false) :
    c ∉ name.toList := by
  intro hmem
  rw [List.all_eq_true.mp h.2 c hmem] at hc
  cases hc

namespace Expr

/-- The root is not malformed, and its names are plain. -/
def IsLegible : Expr → Prop
  | malformed _ => False
  | declare name _ | var name => IsPlain name
  | func params _ => ∀ param ∈ params, IsPlain param
  | _ => True

instance : DecidablePred IsLegible
  | malformed _ => .isFalse id
  | declare name _ | var name => inferInstanceAs (Decidable (IsPlain name))
  | func params _ => inferInstanceAs (Decidable (∀ param ∈ params, IsPlain param))
  | block _ | int _ | binary _ _ _ | unary _ _ | paren _ | call _ _ => .isTrue trivial

/-- No node is malformed, and all names are plain. -/
def Legible (e : Expr) : Prop := ∀ node ∈ e.preorder, node.IsLegible

instance (e : Expr) : Decidable e.Legible :=
  inferInstanceAs (Decidable (∀ node ∈ e.preorder, node.IsLegible))

end Expr

/-! ### Integers, operators and parameters

What a label shows behind its first word is read back. Negative integers are included, although no
literal has one. -/

/-- The integer that digits denote, perhaps behind a minus sign. -/
def integerOf (cs : List Char) : ℤ :=
  if cs.head? = some '-' then -(Decimal.ofDigits 10 cs.tail : ℤ) else Decimal.ofDigits 10 cs

theorem toList_repr_negSucc (n : ℕ) :
    (Int.negSucc n).repr.toList = '-' :: Nat.toDigits 10 (n + 1) := by
  rw [show (Int.negSucc n).repr = "-" ++ (n + 1).repr from rfl, String.toList_append,
    Nat.toList_repr]
  rfl

/-- The decimal digits of an integer are read back as the integer. -/
theorem integerOf_repr (value : ℤ) : integerOf value.repr.toList = value := by
  cases value with
  | ofNat n =>
    have hdigits : (Int.ofNat n).repr.toList = Nat.toDigits 10 n := Decimal.toList_repr n
    have hhead : (Nat.toDigits 10 n).head? ≠ some '-' := by
      intro h
      have hdigit := Nat.isDigit_of_mem_toDigits (by decide) (by decide) (List.mem_of_head? h)
      exact absurd hdigit (by decide)
    rw [integerOf, hdigits, if_neg hhead, Decimal.ofDigits_toDigits]
    rfl
  | negSucc n =>
    rw [integerOf, toList_repr_negSucc, List.head?_cons, if_pos rfl, List.tail_cons,
      Decimal.ofDigits_toDigits]
    rfl

/-- The operator with a symbol. -/
def BinaryOp.ofSymbol? (symbol : String) : Option BinaryOp :=
  [add, sub, mul, div, pow].find? (·.symbol = symbol)

theorem BinaryOp.ofSymbol?_symbol (op : BinaryOp) : ofSymbol? op.symbol = some op := by
  cases op <;> rfl

/-- The sign with a symbol. -/
def UnaryOp.ofSymbol? (symbol : String) : Option UnaryOp :=
  [plus, minus].find? (·.symbol = symbol)

theorem UnaryOp.ofSymbol?_symbol (op : UnaryOp) : ofSymbol? op.symbol = some op := by
  cases op <;> rfl

/-- The names that stand in parentheses, with commas and blanks between them. -/
def paramsOf (cs : List Char) : List String :=
  (((cs.tail.dropLast.filter (· ≠ ' ')).splitOn ',').map String.ofList).filter (· ≠ "")

/-- Without the blanks, only commas stand between the names. -/
theorem filter_intercalate {names : List (List Char)} (h : ∀ name ∈ names, ' ' ∉ name) :
    (", ".toList.intercalate names).filter (· ≠ ' ') = [','].intercalate names := by
  have hname : ∀ name ∈ names, name.filter (· ≠ ' ') = name := by
    intro name hmem
    rw [List.filter_eq_self]
    intro c hc
    exact decide_eq_true fun heq => h name hmem (heq ▸ hc)
  induction names with
  | nil => rfl
  | cons name names ih =>
    obtain ⟨hfirst, hrest⟩ := List.forall_mem_cons.mp hname
    cases names with
    | nil => simpa using hfirst
    | cons next names =>
      rw [List.intercalate_cons_cons, List.intercalate_cons_cons, List.filter_append,
        List.filter_append, hfirst, ih (List.forall_mem_cons.mp h).2 hrest]
      rfl

/-- The parameters of a function are read back from between the parentheses. -/
theorem paramsOf_intercalate {params : List String} (h : ∀ param ∈ params, IsPlain param) :
    paramsOf ("(" ++ ", ".intercalate params ++ ")").toList = params := by
  have hnotMem : ∀ c, isPlainChar c = false → ∀ name ∈ params.map String.toList, c ∉ name := by
    intro c hc name hname
    obtain ⟨param, hparam, rfl⟩ := List.mem_map.mp hname
    exact (h param hparam).notMem hc
  have hchars : ("(" ++ ", ".intercalate params ++ ")").toList.tail.dropLast =
      ", ".toList.intercalate (params.map String.toList) := by
    simp
  rw [paramsOf, hchars, filter_intercalate (hnotMem ' ' (by decide))]
  by_cases hne : params = []
  · rw [hne]
    rfl
  · have hne' : params.map String.toList ≠ [] := by simpa using hne
    have hback : (params.map String.toList).map String.ofList = params := by simp
    rw [List.splitOn_intercalate ',' (hnotMem ',' (by decide)) hne', hback, List.filter_eq_self]
    intro param hparam
    exact decide_eq_true (h param hparam).1

/-! ### Labels

The first word of a label names the constructor. The number of children is checked where the
constructor fixes it. -/

namespace Expr

/-- The node with a label and children, if there is one. A label is a word, which may have an
argument behind a blank. -/
def ofLabel? (label : List Char) (children : List Expr) : Option Expr :=
  match String.ofList (label.takeWhile (· ≠ ' ')), (label.dropWhile (· ≠ ' ')).tail, children with
  | "ExpList", _, statements => some (block statements)
  | "IntLit", digits, _ => some (int (integerOf digits))
  | "BinOp", symbol, [left, right] =>
    (BinaryOp.ofSymbol? (String.ofList symbol)).map (binary · left right)
  | "UnOp", symbol, [operand] => (UnaryOp.ofSymbol? (String.ofList symbol)).map (unary · operand)
  | "Paren", _, [inner] => some (paren inner)
  | "VarDecl", name, [value] => some (declare (String.ofList name) value)
  | "VarId", name, _ => some (var (String.ofList name))
  | "FuncDecl", params, [body] => some (func (paramsOf params) body)
  | "FuncCall", _, callee :: args => some (call callee args)
  | _, _, _ => none

/-- A label says all about a node but its children. -/
theorem ofLabel?_label {e : Expr} (h : e.IsLegible) :
    ofLabel? e.label.toList e.children = some e := by
  cases e with
  | malformed message => cases h
  | block | paren | call =>
    rw [label]
    rfl
  | int value =>
    rw [label, String.toList_append]
    show some (int (integerOf value.repr.toList)) = _
    rw [integerOf_repr]
  | binary op left right =>
    rw [label, String.toList_append]
    show (BinaryOp.ofSymbol? (String.ofList op.symbol.toList)).map (binary · left right) = _
    rw [String.ofList_toList, BinaryOp.ofSymbol?_symbol]
    rfl
  | unary op operand =>
    rw [label, String.toList_append]
    show (UnaryOp.ofSymbol? (String.ofList op.symbol.toList)).map (unary · operand) = _
    rw [String.ofList_toList, UnaryOp.ofSymbol?_symbol]
    rfl
  | declare name value =>
    rw [label, String.toList_append]
    show some (declare (String.ofList name.toList) value) = _
    rw [String.ofList_toList]
  | var name =>
    rw [label, String.toList_append]
    show some (var (String.ofList name.toList)) = _
    rw [String.ofList_toList]
  | func params body =>
    have hlabel : (func params body).label.toList =
        "FuncDecl ".toList ++ ("(" ++ ", ".intercalate params ++ ")").toList := by
      simp [label]
    rw [hlabel]
    show some (func (paramsOf ("(" ++ ", ".intercalate params ++ ")").toList) body) = _
    rw [paramsOf_intercalate h]

/-- A label begins with a letter. -/
theorem label_eq_cons {e : Expr} (h : e.IsLegible) :
    ∃ c cs, e.label.toList = c :: cs ∧ c ≠ ' ' := by
  cases e with
  | malformed message => cases h
  | block | paren | call =>
    rw [label]
    exact ⟨_, _, rfl, by decide⟩
  | func params body =>
    rw [label, String.append_assoc, String.toList_append]
    exact ⟨_, _, rfl, by decide⟩
  | _ =>
    rw [label, String.toList_append]
    exact ⟨_, _, rfl, by decide⟩

theorem Legible.isLegible {e : Expr} (h : e.Legible) : e.IsLegible := by
  refine h e ?_
  rw [preorder_eq]
  exact List.mem_cons_self

/-- The children of a legible tree are legible. -/
theorem Legible.child {e child : Expr} (h : e.Legible) (hchild : child ∈ e.children) :
    child.Legible := by
  intro node hnode
  refine h node ?_
  rw [preorder_eq]
  exact List.mem_cons_of_mem _ (List.mem_flatMap.mpr ⟨child, hchild, hnode⟩)

theorem Legible.fault?_eq_none {e : Expr} (h : e.Legible) : e.fault? = none := by
  rw [fault?_eq_none_iff]
  intro message hmem
  exact h _ hmem

end Expr

/-! ### Lines

The indentation of a line can be told from its label, since no label begins with a blank. -/

theorem lineBreak_notMem_repr (value : ℤ) : '\n' ∉ value.repr.toList := by
  have hdigits : ∀ n, '\n' ∉ Nat.toDigits 10 n := by
    intro n h
    exact absurd (Nat.isDigit_of_mem_toDigits (by decide) (by decide) h) (by decide)
  cases value with
  | ofNat n =>
    rw [show (Int.ofNat n).repr.toList = Nat.toDigits 10 n from Decimal.toList_repr n]
    exact hdigits n
  | negSucc n =>
    rw [toList_repr_negSucc, List.mem_cons]
    exact not_or.mpr ⟨by decide, hdigits _⟩

namespace Outline

theorem lineBreak_notMem_label {e : Expr} (h : e.IsLegible) : '\n' ∉ e.label.toList := by
  have happend : ∀ {head tail : String}, '\n' ∉ head.toList → '\n' ∉ tail.toList →
      '\n' ∉ (head ++ tail).toList := by
    intro head tail hhead htail
    rw [String.toList_append, List.mem_append]
    exact not_or.mpr ⟨hhead, htail⟩
  cases e with
  | malformed message => cases h
  | block | paren | call => rw [Expr.label]; decide
  | int value => exact happend (by decide) (lineBreak_notMem_repr value)
  | binary op left right => exact happend (by decide) (by cases op <;> decide)
  | unary op operand => exact happend (by decide) (by cases op <;> decide)
  | declare name value => exact happend (by decide) (h.notMem (by decide))
  | var name => exact happend (by decide) (h.notMem (by decide))
  | func params body =>
    refine happend (happend (by decide) ?_) (by decide)
    have hparams : ∀ c ∈ (", ".intercalate params).toList, c ≠ '\n' := by
      rw [String.toList_intercalate]
      refine forall_mem_intercalate ?_ (List.forall_mem_map.mpr fun param hparam => ?_)
      · rintro c hc rfl
        exact absurd hc (by decide)
      · rintro c hc rfl
        exact (h param hparam).notMem (by decide) hc
    exact fun hmem => hparams _ hmem rfl

theorem lineBreak_notMem_lineOf {node : ℕ × Expr} (h : node.2.IsLegible) :
    '\n' ∉ (lineOf node).toList := by
  rw [lineOf, String.toList_append, String.toList_ofList, List.mem_append]
  refine not_or.mpr ⟨?_, lineBreak_notMem_label h⟩
  intro hmem
  exact absurd (List.eq_of_mem_replicate hmem) (by decide)

/-- The depth and the label of a node. -/
def labelled (node : ℕ × Expr) : ℕ × List Char := (node.1, node.2.label.toList)

/-- The indentation of a line, and what stands behind it. -/
def readLine (line : List Char) : ℕ × List Char :=
  ((line.takeWhile (· = ' ')).length, line.dropWhile (· = ' '))

/-- A line is read back as the depth and the label of its node. -/
theorem readLine_lineOf {node : ℕ × Expr} (h : node.2.IsLegible) :
    readLine (lineOf node).toList = labelled node := by
  obtain ⟨c, cs, hlabel, hc⟩ := Expr.label_eq_cons h
  have hblanks : ∀ b ∈ List.replicate node.1 ' ', decide (b = ' ') = true := by
    intro b hb
    exact decide_eq_true (List.eq_of_mem_replicate hb)
  rw [readLine, lineOf, labelled, String.toList_append, String.toList_ofList, hlabel,
    List.takeWhile_append_of_pos hblanks, List.dropWhile_append_of_pos hblanks]
  simp [hc]

/-! ### Gathering the lines

Before the lines of a tree are read, the row does not begin with a deeper tree (`EndsAbove`). So the
deeper trees that stand at the beginning of the row when the first line of the tree is read are its
children, and all of them. -/

/-- Reads one more line, above those that have been read. The trees that are deeper become its
children, as far as they stand at the beginning of the row. -/
def attach (line : ℕ × List Char) (trees : List (ℕ × Expr)) : Option (List (ℕ × Expr)) :=
  (Expr.ofLabel? line.2 ((trees.takeWhile (line.1 < ·.1)).map Prod.snd)).map fun e =>
    (line.1, e) :: trees.dropWhile (line.1 < ·.1)

/-- Reads lines from the last one upwards. -/
def gather (lines : List (ℕ × List Char)) (trees : List (ℕ × Expr)) : Option (List (ℕ × Expr)) :=
  lines.foldr (fun line trees => trees.bind (attach line)) (some trees)

theorem gather_cons (line : ℕ × List Char) (lines : List (ℕ × List Char))
    (trees : List (ℕ × Expr)) :
    gather (line :: lines) trees = (gather lines trees).bind (attach line) := rfl

/-- What is gathered from the lower lines is all that the upper ones see of them. -/
theorem gather_append {lines lines' : List (ℕ × List Char)} {trees trees' : List (ℕ × Expr)}
    (h : gather lines' trees = some trees') :
    gather (lines ++ lines') trees = gather lines trees' := by
  rw [gather, List.foldr_append, show lines'.foldr _ _ = some trees' from h, gather]

/-- A row that does not begin with a tree deeper than `depth`. -/
def EndsAbove (depth : ℕ) (trees : List (ℕ × Expr)) : Prop := ∀ t ∈ trees.head?, t.1 ≤ depth

theorem endsAbove_nil {depth : ℕ} : EndsAbove depth [] := by
  intro t ht
  cases ht

/-- A node finds its children. -/
theorem attach_labelled {e : Expr} (h : e.IsLegible) {depth : ℕ} {trees : List (ℕ × Expr)}
    (htrees : EndsAbove depth trees) :
    attach (labelled (depth, e)) (e.children.map (depth + 1, ·) ++ trees) =
      some ((depth, e) :: trees) := by
  have hdeeper : ∀ t ∈ e.children.map (depth + 1, ·), decide (depth < t.1) = true := by
    intro t ht
    obtain ⟨child, -, rfl⟩ := List.mem_map.mp ht
    exact decide_eq_true (Nat.lt_succ_self depth)
  have hrest : trees.takeWhile (depth < ·.1) = [] ∧ trees.dropWhile (depth < ·.1) = trees := by
    cases trees with
    | nil => exact ⟨rfl, rfl⟩
    | cons t trees =>
      have hle : ¬ decide (depth < t.1) = true := by simpa using htrees t rfl
      exact ⟨List.takeWhile_cons_of_neg hle, List.dropWhile_cons_of_neg hle⟩
  have hchildren : (e.children.map (depth + 1, ·)).map Prod.snd = e.children := by simp
  show (Expr.ofLabel? e.label.toList ((List.takeWhile (depth < ·.1) _).map Prod.snd)).map (fun e =>
    (depth, e) :: List.dropWhile (depth < ·.1) _) = _
  rw [List.takeWhile_append_of_pos hdeeper, List.dropWhile_append_of_pos hdeeper, hrest.1,
    hrest.2, List.append_nil, hchildren, Expr.ofLabel?_label h]
  rfl

/-- The lines of trees are gathered into the trees, if those of each tree are. -/
theorem gather_nodesOfEach {es : List Expr} {depth : ℕ}
    (h : ∀ e ∈ es, ∀ trees, EndsAbove depth trees →
      gather ((e.nodes depth).map labelled) trees = some ((depth, e) :: trees))
    {trees : List (ℕ × Expr)} (htrees : EndsAbove depth trees) :
    gather ((Expr.nodesOfEach depth es).map labelled) trees =
      some (es.map (depth, ·) ++ trees) := by
  induction es with
  | nil => rfl
  | cons e es ih =>
    obtain ⟨he, hes⟩ := List.forall_mem_cons.mp h
    rw [Expr.nodesOfEach, List.map_append, gather_append (ih hes)]
    refine he _ ?_
    cases es with
    | nil => exact htrees
    | cons e' es =>
      intro t ht
      cases ht
      exact Nat.le_refl depth

/-- The lines of a tree are gathered into the tree, in front of whatever has been read. -/
theorem gather_nodes {e : Expr} (h : e.Legible) {depth : ℕ} {trees : List (ℕ × Expr)}
    (htrees : EndsAbove depth trees) :
    gather ((e.nodes depth).map labelled) trees = some ((depth, e) :: trees) := by
  induction e using Expr.children_induction generalizing depth trees with
  | h e ih =>
    -- what does not belong to the tree does not belong to a child of it either
    have hdeeper : EndsAbove (depth + 1) trees := fun t ht => Nat.le_succ_of_le (htrees t ht)
    have hchildren := gather_nodesOfEach
      (fun child hchild _ hends => ih child hchild (h.child hchild) hends) hdeeper
    rw [Expr.nodes_eq, List.map_cons, gather_cons, hchildren]
    exact attach_labelled h.isLegible htrees

end Outline

/-! ### Outlines -/

namespace Expr

/-- The tree with an outline. -/
def ofOutline? (text : String) : Option Expr :=
  match Outline.gather ((text.toList.splitOn '\n').map Outline.readLine) [] with
  | some [(0, e)] => some e
  | _ => none

/-- A legible tree is read back from its outline. -/
theorem exists_outline_ofOutline? {t : Expr} (h : t.Legible) :
    ∃ text, t.outline = .ok text ∧ ofOutline? text = some t := by
  refine ⟨_, outline_eq_intercalate h.fault?_eq_none, ?_⟩
  have hlegible : ∀ node ∈ t.nodes 0, node.2.IsLegible := by
    intro node hnode
    exact h node.2 (List.mem_map_of_mem hnode)
  have hbreak : ∀ line ∈ ((t.nodes 0).map Outline.lineOf).map String.toList, '\n' ∉ line := by
    intro line hline
    obtain ⟨text, htext, rfl⟩ := List.mem_map.mp hline
    obtain ⟨node, hnode, rfl⟩ := List.mem_map.mp htext
    exact Outline.lineBreak_notMem_lineOf (hlegible node hnode)
  have hne : ((t.nodes 0).map Outline.lineOf).map String.toList ≠ [] := by
    rw [nodes_eq]
    exact List.cons_ne_nil _ _
  have hlines : (((t.nodes 0).map Outline.lineOf).map String.toList).map Outline.readLine =
      (t.nodes 0).map Outline.labelled := by
    rw [List.map_map, List.map_map]
    exact List.map_congr_left fun node hnode => Outline.readLine_lineOf (hlegible node hnode)
  have htext : ("\n".intercalate ((t.nodes 0).map Outline.lineOf)).toList =
      ['\n'].intercalate (((t.nodes 0).map Outline.lineOf).map String.toList) :=
    String.toList_intercalate
  rw [ofOutline?, htext, List.splitOn_intercalate '\n' hbreak hne, hlines,
    Outline.gather_nodes h Outline.endsAbove_nil]
  rfl

/-- **Outlines determine trees.** A tree without malformed nodes and with plain names is read back
from its outline, and so two such trees with the same outline are equal. -/
theorem outline_decodes :
    (∀ t : Expr, t.Legible → ∃ text, t.outline = .ok text ∧ ofOutline? text = some t) ∧
      ∀ t u : Expr, t.Legible → u.Legible → t.outline = u.outline → t = u := by
  refine ⟨fun t ht => exists_outline_ofOutline? ht, ?_⟩
  intro t u ht hu heq
  obtain ⟨text, htext, hread⟩ := exists_outline_ofOutline? ht
  obtain ⟨text', htext', hread'⟩ := exists_outline_ofOutline? hu
  rw [htext, htext'] at heq
  cases heq
  rw [hread] at hread'
  exact Option.some.inj hread'

/-- An empty block shows nothing but its own line, so that what follows it at the same depth could
be taken for its statement. The indentation tells the two trees apart. -/
theorem outline_decodes_depth :
    let inner : Expr := .func ["a", "b1"] (.block [.block [], .int (-1)])
    let outer : Expr := .func ["a", "b1"] (.block [.block [.int (-1)]])
    (∃ text, inner.outline = .ok text ∧ ofOutline? text = some inner) ∧
      inner.outline ≠ outer.outline := by
  intro inner outer
  have hinner : inner.Legible := by decide
  have houter : outer.Legible := by decide
  refine ⟨outline_decodes.1 inner hinner, ?_⟩
  intro heq
  have hne : inner ≠ outer := by simp [inner, outer]
  exact hne (outline_decodes.2 inner outer hinner houter heq)

end Expr

end ArrowCalc
