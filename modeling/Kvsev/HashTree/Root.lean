import Kvsev.HashTree.Basic

/-!
# The root of a list of leaves

`mth` is the recursive definition of the root: a single leaf is its own root,
and a longer list is split at the largest power of two below its length. A node
is the root of the leaves it covers, so a node that covers the whole list is
the root of the tree.
-/

namespace HashTree

universe u

variable {α : Type u} (h : α → α → α)

/-- The largest power of two below `n`, for `2 ≤ n`. -/
def splitPoint (n : Nat) : Nat := 2 ^ Nat.log 2 (n - 1)

theorem splitPoint_lt {n : Nat} (two : 2 ≤ n) : splitPoint n < n := by
  have := Nat.pow_log_le_self 2 (show n - 1 ≠ 0 by omega)
  simp only [splitPoint]
  omega

theorem splitPoint_pos (n : Nat) : 0 < splitPoint n := Nat.two_pow_pos _

/-- No larger power of two lies below `n`. -/
theorem splitPoint_eq {n l : Nat} (low : 2 ^ l < n) (high : n ≤ 2 ^ (l + 1)) :
    splitPoint n = 2 ^ l := by
  have : Nat.log 2 (n - 1) = l := by
    rw [Nat.log_eq_iff (Or.inr ⟨by decide, by have := Nat.two_pow_pos l; omega⟩)]
    omega
  rw [splitPoint, this]

/-- The root of a list of leaves; the empty list has none. -/
def mth (xs : List α) : Option α :=
  if _ : 2 ≤ xs.length then do
    let left ← mth (xs.take (splitPoint xs.length))
    let right ← mth (xs.drop (splitPoint xs.length))
    return h left right
  else xs.head?
termination_by xs.length
decreasing_by
  · have := splitPoint_lt ‹2 ≤ xs.length›
    simp only [List.length_take]
    omega
  · have := splitPoint_pos xs.length
    simp only [List.length_drop]
    omega

theorem mth_nil : mth h [] = none := by
  rw [mth]
  rfl

theorem mth_of_two_le {xs : List α} (two : 2 ≤ xs.length) :
    mth h xs = (do
      let left ← mth h (xs.take (splitPoint xs.length))
      let right ← mth h (xs.drop (splitPoint xs.length))
      return h left right) := by
  rw [mth, dif_pos two]

theorem mth_of_length_le_one {xs : List α} (one : xs.length ≤ 1) : mth h xs = xs.head? := by
  rw [mth, dif_neg (by omega)]

/-- The leaves a node covers. -/
def covered (xs : List α) (l i : Nat) : List α := (xs.drop (i * 2 ^ l)).take (2 ^ l)

theorem length_covered (xs : List α) (l i : Nat) :
    (covered xs l i).length = min (2 ^ l) (xs.length - i * 2 ^ l) := by
  simp [covered]

/-- The left half of a parent covers its first `2^l` leaves. -/
theorem covered_left (xs : List α) (l i : Nat) :
    covered xs l (2 * i) = (covered xs (l + 1) i).take (2 ^ l) := by
  have start : 2 * i * 2 ^ l = i * 2 ^ (l + 1) := by ring
  have le : 2 ^ l ≤ 2 ^ (l + 1) := Nat.pow_le_pow_right (by decide) (Nat.le_succ l)
  rw [covered, covered, start, List.take_take, Nat.min_eq_left le]

theorem covered_right (xs : List α) (l i : Nat) :
    covered xs l (2 * i + 1) = (covered xs (l + 1) i).drop (2 ^ l) := by
  have start : (2 * i + 1) * 2 ^ l = i * 2 ^ (l + 1) + 2 ^ l := by ring
  have rest : 2 ^ (l + 1) - 2 ^ l = 2 ^ l := by rw [Nat.pow_succ]; omega
  rw [covered, covered, start, List.drop_take, List.drop_drop, rest]

theorem node_eq_mth (xs : List α) (l i : Nat) : node h xs l i = mth h (covered xs l i) := by
  induction l generalizing i with
  | zero =>
    have single : (covered xs 0 i).length ≤ 1 := by simp [length_covered]
    rw [mth_of_length_le_one h single]
    simp [covered, List.head?_take]
  | succ l ih =>
    rw [node_succ, ih, ih, covered_left, covered_right]
    generalize cover : covered xs (l + 1) i = ys
    have short : ys.length ≤ 2 ^ (l + 1) := by
      rw [← cover, length_covered]
      exact Nat.min_le_left _ _
    by_cases long : 2 ^ l < ys.length
    · -- both halves are there, and the split point is the middle of the node
      have pos := Nat.two_pow_pos l
      rw [mth_of_two_le h (show 2 ≤ ys.length by omega), splitPoint_eq long short]
      have left : (mth h (ys.take (2 ^ l))).isSome := by
        rw [← cover, ← covered_left, ← ih, node_isSome_iff]
        rw [← cover, length_covered] at long
        have start : 2 * i * 2 ^ l = i * 2 ^ (l + 1) := by ring
        omega
      have right : (mth h (ys.drop (2 ^ l))).isSome := by
        rw [← cover, ← covered_right, ← ih, node_isSome_iff]
        rw [← cover, length_covered] at long
        have start : (2 * i + 1) * 2 ^ l = i * 2 ^ (l + 1) + 2 ^ l := by ring
        omega
      obtain ⟨a, ha⟩ := Option.isSome_iff_exists.mp left
      obtain ⟨b, hb⟩ := Option.isSome_iff_exists.mp right
      simp [ha, hb]
    · have le := Nat.le_of_not_lt long
      rw [List.drop_eq_nil_of_le le, List.take_of_length_le le, mth_nil, join_none_right]

theorem node_root {xs : List α} {l : Nat} (all : xs.length ≤ 2 ^ l) : node h xs l 0 = mth h xs := by
  rw [node_eq_mth, covered, Nat.zero_mul, List.drop_zero, List.take_of_length_le all]

end HashTree
