import Kvsev.HashTree.Basic

/-!
# How a tree changes when a leaf is appended or replaced

Only the nodes above the changed leaf differ, and each of them follows from the
one below it. For an appended leaf this decides, level by level, whether the
stored part gains an entry, has its last entry overwritten, or stays as it is:
the parity of the path position says which.
-/

namespace HashTree

universe u

variable {α : Type u} (h : α → α → α) {xs : List α} {x : α}

/-! ## Appending a leaf -/

variable {l : Nat}

/-- Nodes whose leaves all existed before keep their value. -/
theorem node_append_of_complete {i : Nat} (complete : (i + 1) * 2 ^ l ≤ xs.length) :
    node h (xs ++ [x]) l i = node h xs l i := by
  apply node_congr
  intro j _ high
  exact List.getElem?_append_left (Nat.lt_of_lt_of_le high complete)

/-- Above the new leaf the path is the only node: nothing lies to its right. -/
theorem node_append_right_of_path : node h (xs ++ [x]) l (xs.length / 2 ^ l + 1) = none := by
  rw [node_eq_none_iff, List.length_append, List.length_singleton]
  have := Nat.lt_mul_div_succ xs.length (Nat.two_pow_pos l)
  rw [Nat.mul_comm] at this
  exact this

variable {n : Nat}

theorem complete_left_of_path (pos : 0 < n / 2 ^ l) : (n / 2 ^ l - 1 + 1) * 2 ^ l ≤ n := by
  rw [Nat.sub_add_cancel pos]
  exact Nat.div_mul_le_self n (2 ^ l)

/-- On an even position the path value is carried up unchanged. -/
theorem node_append_path_of_even (even : xs.length / 2 ^ l % 2 = 0) :
    node h (xs ++ [x]) (l + 1) (xs.length / 2 ^ l / 2) =
      node h (xs ++ [x]) l (xs.length / 2 ^ l) := by
  rw [node_parent_of_even h even, node_append_right_of_path, join_none_right]

/-- On an odd position it is hashed with the stored node on its left. -/
theorem node_append_path_of_odd (odd : xs.length / 2 ^ l % 2 = 1) :
    node h (xs ++ [x]) (l + 1) (xs.length / 2 ^ l / 2) =
      join h (node h xs l (xs.length / 2 ^ l - 1))
        (node h (xs ++ [x]) l (xs.length / 2 ^ l)) := by
  have pos : 0 < xs.length / 2 ^ l := by
    by_contra zero
    simp [Nat.eq_zero_of_not_pos zero] at odd
  rw [node_parent_of_odd h odd, node_append_of_complete h (complete_left_of_path pos)]

/-- Sandwich a leaf count between two multiples of `2^l`, in the form in which
widths are compared. -/
private theorem path_bounds {m : Nat} :
    (n / 2 ^ l = 2 * m → 2 * (m * 2 ^ l) ≤ n ∧ n < 2 * (m * 2 ^ l) + 2 ^ l) ∧
      (n / 2 ^ l = 2 * m + 1 →
        2 * (m * 2 ^ l) + 2 ^ l ≤ n ∧ n < 2 * (m * 2 ^ l) + 2 * 2 ^ l) := by
  have pos := Nat.two_pow_pos l
  have split := Nat.div_add_mod n (2 ^ l)
  have small := Nat.mod_lt n pos
  have even : 2 ^ l * (2 * m) = 2 * (m * 2 ^ l) := by ring
  have odd : 2 ^ l * (2 * m + 1) = 2 * (m * 2 ^ l) + 2 ^ l := by ring
  constructor
  · intro hm
    rw [hm, even] at split
    omega
  · intro hm
    rw [hm, odd] at split
    omega

/-- The widths around an odd path position: the parent slot is the first free
one, or the last one in use. Afterwards it is the last one in use. -/
private theorem le_width_succ {m : Nat} (le : 2 * (m * 2 ^ l) ≤ n) : m ≤ width n (l + 1) := by
  cases m with
  | zero => exact Nat.zero_le _
  | succ m =>
    rw [Nat.succ_le_iff, lt_width_succ_iff]
    have pos := Nat.two_pow_pos l
    have before : (2 * m + 1) * 2 ^ l + 2 ^ l = 2 * ((m + 1) * 2 ^ l) := by ring
    omega

theorem width_append_of_odd (odd : n / 2 ^ l % 2 = 1) :
    n / 2 ^ l / 2 ≤ width n (l + 1) ∧ width n (l + 1) ≤ n / 2 ^ l / 2 + 1 ∧
      width (n + 1) (l + 1) = n / 2 ^ l / 2 + 1 := by
  obtain ⟨m, hm⟩ : ∃ m, n / 2 ^ l = 2 * m + 1 := ⟨n / 2 ^ l / 2, by omega⟩
  have half : (2 * m + 1) / 2 = m := by omega
  have pos := Nat.two_pow_pos l
  obtain ⟨low, high⟩ := path_bounds.2 hm
  have here : (2 * m + 1) * 2 ^ l = 2 * (m * 2 ^ l) + 2 ^ l := by ring
  have next : (2 * (m + 1) + 1) * 2 ^ l = 2 * (m * 2 ^ l) + 3 * 2 ^ l := by ring
  rw [hm, half]
  refine ⟨le_width_succ (by omega), ?_, Nat.le_antisymm ?_ ?_⟩
  · rw [width_succ_le_iff]
    omega
  · rw [width_succ_le_iff]
    omega
  · rw [Nat.succ_le_iff, lt_width_succ_iff]
    omega

/-- Around an even path position the width does not change. -/
theorem width_append_of_even (even : n / 2 ^ l % 2 = 0) :
    width n (l + 1) = n / 2 ^ l / 2 ∧ width (n + 1) (l + 1) = n / 2 ^ l / 2 := by
  obtain ⟨m, hm⟩ : ∃ m, n / 2 ^ l = 2 * m := ⟨n / 2 ^ l / 2, by omega⟩
  have half : 2 * m / 2 = m := by omega
  have pos := Nat.two_pow_pos l
  obtain ⟨low, high⟩ := path_bounds.1 hm
  have here : (2 * m + 1) * 2 ^ l = 2 * (m * 2 ^ l) + 2 ^ l := by ring
  rw [hm, half]
  refine ⟨Nat.le_antisymm ?_ (le_width_succ low),
    Nat.le_antisymm ?_ (le_width_succ (Nat.le_succ_of_le low))⟩
  · rw [width_succ_le_iff]
    omega
  · rw [width_succ_le_iff]
    omega

/-- Around an odd path position a node is added exactly where the lowest bit of
the number of leaves is. -/
theorem width_eq_path_iff (odd : n / 2 ^ l % 2 = 1) :
    width n (l + 1) = n / 2 ^ l / 2 ↔ n % 2 ^ (l + 1) = 2 ^ l := by
  obtain ⟨slot, _, _⟩ := width_append_of_odd odd
  obtain ⟨m, hm⟩ : ∃ m, n / 2 ^ l = 2 * m + 1 := ⟨n / 2 ^ l / 2, by omega⟩
  have half : (2 * m + 1) / 2 = m := by omega
  rw [hm, half] at slot ⊢
  obtain ⟨low, high⟩ := path_bounds.2 hm
  have middle : (2 * m + 1) * 2 ^ l = 2 * (m * 2 ^ l) + 2 ^ l := by ring
  have rest : n % 2 ^ (l + 1) = n - 2 * (m * 2 ^ l) := by
    have start : 2 ^ (l + 1) * m = 2 * (m * 2 ^ l) := by ring
    have quotient : n / 2 ^ (l + 1) = m := by
      rw [Nat.pow_succ, ← Nat.div_div_eq_div_mul, hm, half]
    have split := Nat.div_add_mod n (2 ^ (l + 1))
    rw [quotient, start] at split
    omega
  rw [rest]
  constructor
  · intro same
    have full := width_succ_le_iff.mp (Nat.le_of_eq same)
    omega
  · intro lowest
    exact Nat.le_antisymm (width_succ_le_iff.mpr (by omega)) slot

/-- Everything to the left of the path's parent is complete. -/
private theorem complete_of_lt_path {i : Nat} (lt : i < n / 2 ^ l / 2) :
    (i + 1) * 2 ^ (l + 1) ≤ n :=
  calc (i + 1) * 2 ^ (l + 1) ≤ n / 2 ^ l / 2 * 2 ^ (l + 1) := Nat.mul_le_mul_right _ lt
    _ = n / 2 ^ (l + 1) * 2 ^ (l + 1) := by rw [Nat.div_div_eq_div_mul, Nat.pow_succ]
    _ ≤ n := Nat.div_mul_le_self _ _

/-- The stored part of a level above an even path position stays as it is. -/
theorem IsLevel.append_of_even {ys : List α} (level : IsLevel h xs (l + 1) ys)
    (even : xs.length / 2 ^ l % 2 = 0) : IsLevel h (xs ++ [x]) (l + 1) ys := by
  obtain ⟨old, new⟩ := width_append_of_even even
  refine level.congr ?_ fun i lt => node_append_of_complete h ?_
  · rw [List.length_append, List.length_singleton, new, old]
  · exact complete_of_lt_path (old ▸ lt)

/-- Above an odd path position the parent's slot receives the new hash, whether
it was in use before or not. -/
theorem IsLevel.append_of_odd {ys : List α} {y : α} (level : IsLevel h xs (l + 1) ys)
    (odd : xs.length / 2 ^ l % 2 = 1)
    (parent : node h (xs ++ [x]) (l + 1) (xs.length / 2 ^ l / 2) = some y) :
    IsLevel h (xs ++ [x]) (l + 1)
      (ys.take (xs.length / 2 ^ l / 2) ++ y :: ys.drop (xs.length / 2 ^ l / 2 + 1)) := by
  obtain ⟨slot, last, new⟩ := width_append_of_odd odd
  rw [← level.length] at slot last
  rw [List.drop_eq_nil_of_le last]
  constructor
  · rw [List.length_append, List.length_take_of_le slot, List.length_append,
      List.length_singleton, List.length_singleton, new]
  · intro i lt
    rw [List.length_append, List.length_take_of_le slot, List.length_singleton] at lt
    rcases Nat.lt_succ_iff_lt_or_eq.mp lt with before | here
    · have stored : i < ys.length := Nat.lt_of_lt_of_le before slot
      rw [List.getElem?_append_left (by rwa [List.length_take_of_le slot]),
        List.getElem?_take_of_lt before, level.entry i stored,
        node_append_of_complete h (complete_of_lt_path before)]
    · subst here
      rw [parent, List.getElem?_append_right (by rw [List.length_take_of_le slot]),
        List.length_take_of_le slot]
      simp

/-! ## Replacing a leaf -/

/-- Off the path of the replaced leaf nothing changes. -/
theorem node_set_of_ne {i k : Nat} (off : k / 2 ^ l ≠ i) :
    node h (xs.set k x) l i = node h xs l i := by
  apply node_congr
  intro j low high
  have : k ≠ j := by
    rintro rfl
    exact off (Nat.div_eq_of_lt_le low high)
  rw [List.getElem?_set_ne this]

/-- Overwriting the path's slot, if it is stored, makes a level current again. -/
theorem IsLevel.set {k : Nat} {ys : List α} {y : α} (level : IsLevel h xs l ys)
    (path : node h (xs.set k x) l (k / 2 ^ l) = some y) :
    IsLevel h (xs.set k x) l (ys.set (k / 2 ^ l) y) := by
  constructor
  · rw [List.length_set, List.length_set, level.length]
  · intro i lt
    rw [List.length_set] at lt
    by_cases here : k / 2 ^ l = i
    · subst here
      rw [path, List.getElem?_set_self lt]
    · rw [List.getElem?_set_ne here, node_set_of_ne h here, level.entry i lt]

end HashTree
