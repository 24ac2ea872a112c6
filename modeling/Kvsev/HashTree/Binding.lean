import Kvsev.HashTree.Path
import Kvsev.HashTree.Root

/-!
# What a root says about its leaves

Leaves and inner nodes have the same type, and nothing in a value says which of
the two it is. Two nodes with the same value, of two trees of any sizes, still
cover the same leaves, unless two different hashed pairs collide or one tree
has a leaf that is a hash value of the other.
-/

namespace HashTree

universe u

variable {α : Type u} (h : α → α → α)

/-- The pair is hashed for some node of the tree over `xs`. -/
def Hashed (xs : List α) (p : α × α) : Prop :=
  ∃ l i, node h xs l (2 * i) = some p.1 ∧ node h xs l (2 * i + 1) = some p.2

/-- Two different pairs with the same hash, one from each tree. -/
def Collide (xs ys : List α) : Prop :=
  ∃ p p', Hashed h xs p ∧ Hashed h ys p' ∧ p ≠ p' ∧ h p.1 p.2 = h p'.1 p'.2

/-- A leaf of `ys` is a hash value of the tree over `xs`. -/
def Impersonates (xs ys : List α) : Prop := ∃ p, Hashed h xs p ∧ h p.1 p.2 ∈ ys

variable {h}

/-- A node without a right half covers what its left child covers. -/
theorem covered_of_width_le {xs : List α} {l i : Nat} (le : width xs.length (l + 1) ≤ i) :
    covered xs (l + 1) i = covered xs l (2 * i) := by
  rw [covered_left, List.take_of_length_le]
  have start : (2 * i + 1) * 2 ^ l = i * 2 ^ (l + 1) + 2 ^ l := by ring
  have short := width_succ_le_iff.mp le
  rw [length_covered]
  omega

/-- A parent covers the leaves of its halves, one after the other. -/
theorem covered_append (xs : List α) (l i : Nat) :
    covered xs l (2 * i) ++ covered xs l (2 * i + 1) = covered xs (l + 1) i := by
  rw [covered_left, covered_right, List.take_append_drop]

theorem covered_zero {xs : List α} {i : Nat} {d : α} (leaf : xs[i]? = some d) :
    covered xs 0 i = [d] := by
  obtain ⟨inRange, rfl⟩ := List.getElem?_eq_some_iff.mp leaf
  rw [covered, Nat.pow_zero, Nat.mul_one, List.drop_eq_getElem_cons inRange]
  rfl

/-- A node above the leaves is its left child, or the hash of a pair. -/
theorem node_succ_cases {xs : List α} {l i : Nat} {d : α} (here : node h xs (l + 1) i = some d) :
    (node h xs l (2 * i) = some d ∧ covered xs (l + 1) i = covered xs l (2 * i)) ∨
      ∃ a b, node h xs l (2 * i) = some a ∧ node h xs l (2 * i + 1) = some b ∧ h a b = d := by
  rcases Nat.lt_or_ge i (width xs.length (l + 1)) with lt | ge
  · obtain ⟨a, b, left, right, hash⟩ := node_of_lt_width h lt
    rw [here] at hash
    exact .inr ⟨a, b, left, right, (Option.some.inj hash).symm⟩
  · rw [node_of_width_le h ge] at here
    exact .inl ⟨here, covered_of_width_le ge⟩

/-- Two nodes with the same value cover the same leaves. The induction is on the
two levels together: a node that was moved up unchanged is followed down alone,
two hashed ones are followed down in step. -/
theorem covered_eq_or_collide {xs ys : List α} {l l' i i' : Nat} {d : α}
    (here : node h xs l i = some d) (there : node h ys l' i' = some d) :
    covered xs l i = covered ys l' i' ∨ Collide h xs ys ∨
      Impersonates h xs ys ∨ Impersonates h ys xs := by
  induction total : l + l' using Nat.strong_induction_on generalizing l l' i i' d with
  | h total ih =>
    cases l with
    | zero =>
      cases l' with
      | zero =>
        left
        rw [covered_zero here, covered_zero there]
      | succ l' =>
        rcases node_succ_cases there with ⟨child, cover⟩ | ⟨a, b, left, right, rfl⟩
        · rw [cover]
          exact ih (0 + l') (by omega) here child rfl
        · right; right; right
          exact ⟨(a, b), ⟨l', i', left, right⟩, List.mem_of_getElem? here⟩
    | succ l =>
      rcases node_succ_cases here with ⟨child, cover⟩ | ⟨a, b, left, right, rfl⟩
      · rw [cover]
        exact ih (l + l') (by omega) child there rfl
      cases l' with
      | zero =>
        right; right; left
        exact ⟨(a, b), ⟨l, i, left, right⟩, List.mem_of_getElem? there⟩
      | succ l' =>
        rcases node_succ_cases there with ⟨child, cover⟩ | ⟨a', b', left', right', meet⟩
        · rw [cover]
          exact ih (l + 1 + l') (by omega) here child rfl
        by_cases same : (a, b) = (a', b')
        · obtain ⟨rfl, rfl⟩ := Prod.mk.inj same
          rcases ih (l + l') (by omega) left left' rfl with first | bad
          · rcases ih (l + l') (by omega) right right' rfl with second | bad
            · left
              rw [← covered_append, ← covered_append, first, second]
            · exact .inr bad
          · exact .inr bad
        · right; left
          exact ⟨(a, b), (a', b'), ⟨l, i, left, right⟩, ⟨l', i', left', right'⟩, same,
            meet.symm⟩

/-- Trees with the same root have the same leaves. -/
theorem eq_or_collide_of_mth_eq {xs ys : List α} {d : α} (root : mth h xs = some d)
    (root' : mth h ys = some d) :
    xs = ys ∨ Collide h xs ys ∨ Impersonates h xs ys ∨ Impersonates h ys xs := by
  have all : ∀ zs : List α, zs.length ≤ 2 ^ zs.length := fun zs => Nat.le_of_lt Nat.lt_two_pow_self
  have whole : ∀ zs : List α, covered zs zs.length 0 = zs := by
    intro zs
    rw [covered, Nat.zero_mul, List.drop_zero, List.take_of_length_le (all zs)]
  rw [← node_root h (all xs)] at root
  rw [← node_root h (all ys)] at root'
  simpa only [whole] using covered_eq_or_collide root root'

/-! ## Every hashed pair lies on the path of a leaf -/

section

variable {levels : Nat → List α} {xs : List α}

/-- A climb hashes the pair of each position on its way. -/
theorem mem_hashedPairs (stored : ∀ k, IsLevel h xs k (levels k)) {count l q k : Nat} {d a : α}
    {p : α × α} (below : k < count) (path : node h xs l q = some d)
    (reached : node h xs (l + k) (q / 2 ^ k) = some a)
    (pair : (sibling levels (l + k) (q / 2 ^ k)).pair a = some p) :
    p ∈ hashedPairs h d (siblings levels count l q) := by
  induction k generalizing count l q d with
  | zero =>
    obtain ⟨count, rfl⟩ : ∃ c, count = c + 1 := ⟨count - 1, by omega⟩
    rw [Nat.pow_zero, Nat.div_one, Nat.add_zero] at reached pair
    obtain rfl : d = a := Option.some.inj (path.symm.trans reached)
    simp [siblings, hashedPairs, pair]
  | succ k ih =>
    obtain ⟨count, rfl⟩ : ∃ c, count = c + 1 := ⟨count - 1, by omega⟩
    have level : l + (k + 1) = l + 1 + k := by omega
    have half : q / 2 ^ (k + 1) = q / 2 / 2 ^ k := by
      rw [Nat.div_div_eq_div_mul, ← Nat.pow_succ']
    rw [level, half] at reached pair
    apply List.mem_append_right
    exact ih (by omega) (node_parent_eq h (fun j _ => stored j) path) reached pair

theorem Hashed.on_path (stored : ∀ k, IsLevel h xs k (levels k)) {p : α × α}
    (hashed : Hashed h xs p) {top : Nat} (all : xs.length ≤ 2 ^ top) :
    ∃ i leaf, xs[i]? = some leaf ∧ p ∈ hashedPairs h leaf (siblings levels top 0 i) := by
  obtain ⟨l, i, left, right⟩ := hashed
  have reached : (2 * i + 1) * 2 ^ l < xs.length := by
    rw [← node_isSome_iff h, right]
    rfl
  have step : (2 * i + 1) * 2 ^ l = 2 * i * 2 ^ l + 2 ^ l := by ring
  have pos := Nat.two_pow_pos l
  have inRange : 2 * i * 2 ^ l < xs.length := by omega
  have below : l < top := by
    apply (Nat.pow_lt_pow_iff_right (show 1 < 2 by decide)).mp
    omega
  obtain ⟨leaf, here⟩ : ∃ leaf, xs[2 * i * 2 ^ l]? = some leaf :=
    ⟨_, List.getElem?_eq_getElem inRange⟩
  refine ⟨2 * i * 2 ^ l, leaf, here, ?_⟩
  have position : 2 * i * 2 ^ l / 2 ^ l = 2 * i := Nat.mul_div_cancel _ (Nat.two_pow_pos l)
  have found : neighbor levels l (2 * i + 1) = some p.2 := by
    rw [neighbor_eq_node h fun k _ => stored k, right]
  apply mem_hashedPairs stored below (show node h xs 0 (2 * i * 2 ^ l) = some leaf from here)
    (a := p.1)
  · rw [Nat.zero_add, position, left]
  · rw [Nat.zero_add, position]
    simp [sibling, found, Sibling.pair]

end

end HashTree
