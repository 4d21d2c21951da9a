import ArrowCalc.Proofs.Outline.Listing
import Mathlib.Data.List.Lex

/-!
# Outlines of many trees

Trees may be written on one outline, one after the other, and some of them may be malformed. The
level at which lines are indented is shared by all of them. It is back at zero behind each tree,
also where the writer gave up deep inside of one, so every tree is listed as if it were alone.

What a listing is, is said here with addresses. The address of a node says which child to go to,
from the root on. Its length is the depth of the node, and the order from the root down and from
left to right is the lexicographic order of the addresses.

## Main definitions

* `Expr.at?` — the node at an address
* `Expr.IsRow` — the nodes of a tree by their addresses

## Main results

* `Expr.exists_isRow` — the nodes in the order of their addresses are the nodes in a row
* `Outline.writeInTurn_eq` — the lines of trees that are written in turn
* `Outline.writeInTurn_lists` — the lines are those of the addresses, tree after tree
-/

namespace ArrowCalc

namespace Expr

/-! ### Addresses -/

/-- The node at an address. Children are counted from zero. -/
def at? : List ℕ → Expr → Option Expr
  | [], e => some e
  | i :: address, e => e.children[i]?.bind (at? address)

/-- The row has every node of the tree with its address, in the order of the addresses. -/
structure IsRow (e : Expr) (row : List (List ℕ × Expr)) : Prop where
  sorted : row.Pairwise (·.1 < ·.1)
  mem_iff : ∀ a n, (a, n) ∈ row ↔ e.at? a = some n
  nodes_eq : ∀ depth, e.nodes depth = row.map fun p => (depth + p.1.length, p.2)

/-- The rows of children, one behind the other. The children are counted from `k` on. -/
structure AreRows (k : ℕ) (es : List Expr) (row : List (List ℕ × Expr)) : Prop where
  sorted : row.Pairwise (·.1 < ·.1)
  mem_iff : ∀ a n, (a, n) ∈ row ↔ ∃ i b, a = (k + i) :: b ∧ es[i]?.bind (at? b) = some n
  nodes_eq : ∀ depth, nodesOfEach (depth + 1) es = row.map fun p => (depth + p.1.length, p.2)

theorem areRows_nil (k : ℕ) : AreRows k [] [] where
  sorted := .nil
  mem_iff a n := by simp
  nodes_eq depth := rfl

theorem IsRow.areRows_cons {k : ℕ} {e : Expr} {es : List Expr} {row rest : List (List ℕ × Expr)}
    (h : IsRow e row) (hrest : AreRows (k + 1) es rest) :
    AreRows k (e :: es) (row.map (fun p => (k :: p.1, p.2)) ++ rest) where
  sorted := by
    refine List.pairwise_append.mpr ⟨?_, hrest.sorted, ?_⟩
    · exact List.pairwise_map.mpr (h.sorted.imp fun hlt => List.Lex.cons hlt)
    · rintro p hp ⟨b, n⟩ hq
      obtain ⟨q, -, rfl⟩ := List.mem_map.mp hp
      obtain ⟨i, c, rfl, -⟩ := (hrest.mem_iff b n).mp hq
      exact List.Lex.rel (by omega)
  mem_iff a n := by
    simp only [List.mem_append, List.mem_map, Prod.mk.injEq, Prod.exists, hrest.mem_iff]
    constructor
    · rintro (⟨b, m, hmem, rfl, rfl⟩ | ⟨i, b, rfl, hat⟩)
      · exact ⟨0, b, rfl, (h.mem_iff b m).mp hmem⟩
      · exact ⟨i + 1, b, by rw [Nat.add_right_comm, Nat.add_assoc], hat⟩
    · rintro ⟨i, b, rfl, hat⟩
      cases i with
      | zero => exact .inl ⟨b, n, (h.mem_iff b n).mpr hat, rfl, rfl⟩
      | succ i => exact .inr ⟨i, b, by rw [Nat.add_right_comm, Nat.add_assoc], hat⟩
  nodes_eq depth := by
    rw [nodesOfEach, h.nodes_eq, hrest.nodes_eq, List.map_append, List.map_map]
    congr 1
    refine List.map_congr_left fun p _ => ?_
    simp only [Function.comp_apply, List.length_cons]
    rw [Nat.add_assoc, Nat.add_comm 1]

/-- Children have rows if each of them has one. -/
theorem exists_areRows {es : List Expr} (h : ∀ e ∈ es, ∃ row, IsRow e row) (k : ℕ) :
    ∃ row, AreRows k es row := by
  induction es generalizing k with
  | nil => exact ⟨[], areRows_nil k⟩
  | cons e es ih =>
    obtain ⟨⟨row, hrow⟩, hes⟩ := List.forall_mem_cons.mp h
    obtain ⟨rest, hrest⟩ := ih hes (k + 1)
    exact ⟨_, hrow.areRows_cons hrest⟩

/-- The root comes before its children. -/
theorem AreRows.isRow {e : Expr} {row : List (List ℕ × Expr)} (h : AreRows 0 e.children row) :
    IsRow e (([], e) :: row) where
  sorted := by
    refine List.pairwise_cons.mpr ⟨?_, h.sorted⟩
    rintro ⟨a, n⟩ hmem
    obtain ⟨i, b, rfl, -⟩ := (h.mem_iff a n).mp hmem
    exact List.Lex.nil
  mem_iff a n := by
    rw [List.mem_cons, h.mem_iff, Prod.mk.injEq]
    cases a with
    | nil => simp [at?, eq_comm]
    | cons i a => simp [at?]
  nodes_eq depth := by
    rw [Expr.nodes_eq, h.nodes_eq]
    rfl

/-- The nodes in the order of their addresses are the nodes in a row. -/
theorem exists_isRow (e : Expr) : ∃ row, IsRow e row := by
  induction e using children_induction with
  | h e ih =>
    obtain ⟨row, hrow⟩ := exists_areRows ih 0
    exact ⟨_, hrow.isRow⟩

end Expr

/-- In a sorted list, what comes before the first `x` without `p` is what has nothing without `p` up
to it. -/
theorem mem_takeWhile_iff_of_sorted {α β : Type} [LinearOrder β] {key : α → β} {p : α → Bool}
    {l : List α} (h : l.Pairwise (key · < key ·)) {x : α} :
    x ∈ l.takeWhile p ↔ x ∈ l ∧ ∀ y ∈ l, key y ≤ key x → p y := by
  induction l with
  | nil => simp
  | cons a l ih =>
    obtain ⟨ha, hl⟩ := List.pairwise_cons.mp h
    by_cases hp : p a
    · rw [List.takeWhile_cons_of_pos hp, List.mem_cons, List.mem_cons, ih hl]
      constructor
      · rintro (rfl | ⟨hx, hall⟩)
        · refine ⟨.inl rfl, List.forall_mem_cons.mpr ⟨fun _ => hp, fun y hy hle => ?_⟩⟩
          exact absurd (ha y hy) (not_lt.mpr hle)
        · exact ⟨.inr hx, List.forall_mem_cons.mpr ⟨fun _ => hp, hall⟩⟩
      · rintro ⟨rfl | hx, hall⟩
        · exact .inl rfl
        · exact .inr ⟨hx, (List.forall_mem_cons.mp hall).2⟩
    · rw [List.takeWhile_cons_of_neg hp]
      constructor
      · intro hx
        cases hx
      · rintro ⟨hx, hall⟩
        have hle : key a ≤ key x := by
          rcases List.mem_cons.mp hx with rfl | hx
          · exact le_rfl
          · exact (ha x hx).le
        exact absurd (hall a List.mem_cons_self hle) hp

namespace Outline

/-! ### Trees in turn -/

/-- What is written on an outline at the outer level leaves it there. -/
theorem writeInTurn_eq (es : List Expr) (lines : Array String) :
    writeInTurn write ⟨lines, 0⟩ es =
      ⟨lines ++ (es.flatMap fun e => shown (e.nodes 0)).toArray, 0⟩ := by
  induction es generalizing lines with
  | nil => simp [writeInTurn]
  | cons e es ih =>
    have hstep : writeInTurn write ⟨lines, 0⟩ (e :: es) =
        writeInTurn write (afterRun (write e ⟨lines, 0⟩)) es := rfl
    rw [hstep, write_eq_ending, afterRun_ending, ih, List.flatMap_cons, ← List.append_toArray,
      Array.append_assoc]

/-- The nodes of a row that are shown. -/
theorem shown_nodes_eq {e : Expr} {row : List (List ℕ × Expr)} (h : e.IsRow row) :
    shown (e.nodes 0) =
      (row.takeWhile (·.2.message?.isNone)).map fun p => lineOf (p.1.length, p.2) := by
  rw [shown, h.nodes_eq, List.takeWhile_map, List.map_map]
  simp only [Function.comp_def, Nat.zero_add]

theorem mem_shown_iff {e : Expr} {row : List (List ℕ × Expr)} (h : e.IsRow row) {a : List ℕ}
    {n : Expr} : (a, n) ∈ row.takeWhile (·.2.message?.isNone) ↔
      e.at? a = some n ∧ ∀ b ≤ a, ∀ message, e.at? b ≠ some (.malformed message) := by
  rw [mem_takeWhile_iff_of_sorted h.sorted, h.mem_iff]
  refine and_congr_right fun _ => ⟨fun hall b hb message hat => ?_, fun hall ⟨b, m⟩ hm hb => ?_⟩
  · cases hall _ ((h.mem_iff b _).mpr hat) hb
  · rw [Option.isNone_iff_eq_none, Option.eq_none_iff_forall_ne_some]
    intro message hmessage
    rw [Expr.message?_eq_some_iff] at hmessage
    exact hall b hb message (hmessage ▸ (h.mem_iff b m).mp hm)

/-- **Outlines of many trees.** Every tree has a row of nodes, which does not depend on what else is
written: the nodes up to the first malformed one, in the order of their addresses. Whatever trees
are written in turn on one outline, its lines are those of the rows, one tree after the other, each
node indented by its own depth, and the outline is back on the outer level. -/
theorem writeInTurn_lists : ∃ row : Expr → List (List ℕ × Expr),
    (∀ e, (row e).Pairwise (·.1 < ·.1)) ∧
      (∀ e a n, (a, n) ∈ row e ↔
        e.at? a = some n ∧ ∀ b ≤ a, ∀ message, e.at? b ≠ some (.malformed message)) ∧
      ∀ es, writeInTurn write empty es =
        ⟨(es.flatMap fun e => (row e).map fun p => lineOf (p.1.length, p.2)).toArray, 0⟩ := by
  choose row hrow using Expr.exists_isRow
  refine ⟨fun e => (row e).takeWhile (·.2.message?.isNone), fun e => ?_, fun e a n => ?_,
    fun es => ?_⟩
  · exact (hrow e).sorted.sublist (List.takeWhile_sublist _)
  · exact mem_shown_iff (hrow e)
  · rw [empty, writeInTurn_eq, Array.empty_append]
    simp only [shown_nodes_eq (hrow _)]

end Outline

end ArrowCalc
