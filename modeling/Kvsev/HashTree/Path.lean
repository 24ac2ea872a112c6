import Kvsev.HashTree.Basic

/-!
# Climbing from a leaf to the root

A reader of the stored levels recomputes the root from one leaf. At each level
it looks for the other half of the parent: to the left it is always stored, to
the right it is the first node found by descending along left children, and it
may be missing altogether.

Two facts carry the verification of such a reader. On levels that are current
for a list of leaves, the climb follows the nodes of the path. On two sets of
levels of the same shape, two climbs that meet at the top start from the same
digest, unless a collision was hashed on the way.
-/

namespace HashTree

universe u

variable {α : Type u} (h : α → α → α)

/-- The node at level `l`, position `i`, looked up in stored levels only. -/
def neighbor (levels : Nat → List α) : Nat → Nat → Option α
  | 0, i => (levels 0)[i]?
  | l + 1, i =>
    if i < (levels (l + 1)).length then (levels (l + 1))[i]? else neighbor levels l (2 * i)

variable {levels : Nat → List α}

theorem neighbor_eq_node {xs : List α} {l i : Nat}
    (stored : ∀ k, k ≤ l → IsLevel h xs k (levels k)) :
    neighbor levels l i = node h xs l i := by
  induction l generalizing i with
  | zero =>
    have leaves := stored 0 (Nat.le_refl 0)
    by_cases inRange : i < (levels 0).length
    · exact leaves.entry i inRange
    · have out := Nat.le_of_not_lt inRange
      have length := leaves.length
      simp only [width_zero] at length
      simp [neighbor, out, length ▸ out]
  | succ l ih =>
    have level := stored (l + 1) (Nat.le_refl _)
    by_cases inRange : i < (levels (l + 1)).length
    · simpa [neighbor, inRange] using level.entry i inRange
    · have out : width xs.length (l + 1) ≤ i := level.length ▸ Nat.le_of_not_lt inRange
      rw [node_of_width_le h out, ← ih fun k hk => stored k (Nat.le_succ_of_le hk)]
      simp [neighbor, inRange]

variable {levels' : Nat → List α}

/-- Whether a neighbor is found depends only on how much is stored. -/
theorem neighbor_isSome_congr {l i : Nat} (same : ∀ k, (levels k).length = (levels' k).length) :
    (neighbor levels l i).isSome = (neighbor levels' l i).isSome := by
  induction l generalizing i with
  | zero =>
    rw [Bool.eq_iff_iff]
    simp [neighbor, same]
  | succ l ih =>
    by_cases inRange : i < (levels (l + 1)).length
    · simp [neighbor, inRange, same (l + 1) ▸ inRange]
    · simpa [neighbor, inRange, same (l + 1) ▸ inRange] using ih

/-- The other half of a parent, seen from one of its children. -/
inductive Sibling (α : Type u) where
  | alone
  | onLeft (a : α)
  | onRight (a : α)

namespace Sibling

/-- The two digests that are hashed for the parent of `d`, if any are. -/
def pair (d : α) : Sibling α → Option (α × α)
  | alone => none
  | onLeft a => some (a, d)
  | onRight a => some (d, a)

/-- The value of the parent of `d`. -/
def parent (d : α) (s : Sibling α) : α :=
  match s.pair d with
  | none => d
  | some (a, b) => h a b

/-- Two siblings on the same side, with any digests. -/
inductive SameSide : Sibling α → Sibling α → Prop where
  | alone : SameSide .alone .alone
  | onLeft (a b : α) : SameSide (.onLeft a) (.onLeft b)
  | onRight (a b : α) : SameSide (.onRight a) (.onRight b)

end Sibling

/-- The sibling of position `q` of level `l`. -/
def sibling (levels : Nat → List α) (l q : Nat) : Sibling α :=
  if q % 2 = 0 then
    match neighbor levels l (q + 1) with
    | some right => .onRight right
    | none => .alone
  else
    match (levels l)[q - 1]? with
    | some left => .onLeft left
    | none => .alone

/-- The siblings met on the first `count` levels above position `q` of level `l`. -/
def siblings (levels : Nat → List α) : Nat → Nat → Nat → List (Sibling α)
  | 0, _, _ => []
  | count + 1, l, q => sibling levels l q :: siblings levels count (l + 1) (q / 2)

/-- The value a climb from `d` ends with. -/
def climb (d : α) : List (Sibling α) → α
  | [] => d
  | s :: rest => climb (s.parent h d) rest

/-- The pairs hashed during the climb, from the leaf up. -/
def hashedPairs (d : α) : List (Sibling α) → List (α × α)
  | [] => []
  | s :: rest => (s.pair d).toList ++ hashedPairs (s.parent h d) rest

/-! ## Climbing through current levels -/

section

variable {levels : Nat → List α} {xs : List α} {l q : Nat} {d : α}

/-- One level up: the computed value is the parent node. Only the levels up to
the current one have to be current. -/
theorem node_parent_eq (stored : ∀ k, k ≤ l → IsLevel h xs k (levels k))
    (path : node h xs l q = some d) :
    node h xs (l + 1) (q / 2) = some ((sibling levels l q).parent h d) := by
  by_cases even : q % 2 = 0
  · rw [node_parent_of_even h even, path, ← neighbor_eq_node h stored]
    cases right : neighbor levels l (q + 1) <;>
      simp [sibling, even, right, Sibling.parent, Sibling.pair]
  have odd : q % 2 = 1 := by omega
  have reached : q * 2 ^ l < xs.length := by
    rw [← node_isSome_iff h, path]
    rfl
  have complete : (q - 1 + 1) * 2 ^ l ≤ xs.length := by
    rw [Nat.sub_add_cancel (by omega)]
    exact Nat.le_of_lt reached
  have inLevel := lt_width_of_complete complete
  obtain ⟨a, left⟩ := Option.isSome_iff_exists.mp (node_isSome_of_lt_width h inLevel)
  have entry : (levels l)[q - 1]? = some a := by
    rw [(stored l (Nat.le_refl l)).get inLevel, left]
  rw [node_parent_of_odd h odd, path, left]
  simp [sibling, odd, entry, Sibling.parent, Sibling.pair]

/-- The whole climb follows the path of nodes. -/
theorem node_climb_eq (stored : ∀ k, IsLevel h xs k (levels k)) (count : Nat)
    (path : node h xs l q = some d) :
    node h xs (l + count) (q / 2 ^ count) =
      some (climb h d (siblings levels count l q)) := by
  induction count generalizing l q d with
  | zero => simpa [siblings, climb] using path
  | succ count ih =>
    have up := ih (node_parent_eq h (fun k _ => stored k) path)
    rw [Nat.div_div_eq_div_mul, ← Nat.pow_succ'] at up
    rw [Nat.add_right_comm, Nat.add_assoc] at up
    exact up

end

/-! ## Two climbs of the same shape -/

theorem sibling_sameSide (same : ∀ k, (levels k).length = (levels' k).length) (l q : Nat) :
    (sibling levels l q).SameSide (sibling levels' l q) := by
  by_cases even : q % 2 = 0
  · have found := neighbor_isSome_congr (l := l) (i := q + 1) same
    simp only [sibling, even, if_true]
    cases left : neighbor levels l (q + 1) <;> cases right : neighbor levels' l (q + 1) <;>
      simp only [left, right, Option.isSome_none, Option.isSome_some, reduceCtorEq] at found ⊢
    · exact .alone
    · exact .onRight _ _
  · simp only [sibling, even, if_false]
    by_cases inRange : q - 1 < (levels l).length
    · have inRange' : q - 1 < (levels' l).length := same l ▸ inRange
      rw [List.getElem?_eq_getElem inRange, List.getElem?_eq_getElem inRange']
      exact .onLeft _ _
    · have out := Nat.le_of_not_lt inRange
      rw [List.getElem?_eq_none out, List.getElem?_eq_none (same l ▸ out)]
      exact .alone

theorem siblings_sameSide (same : ∀ k, (levels k).length = (levels' k).length) (count l q : Nat) :
    List.Forall₂ Sibling.SameSide (siblings levels count l q) (siblings levels' count l q) := by
  induction count generalizing l q with
  | zero => exact .nil
  | succ count ih => exact .cons (sibling_sameSide same l q) (ih _ _)

/-- Equal parents come from equal children, or from a collision between the two
hashed pairs. -/
theorem Sibling.eq_or_collision {s s' : Sibling α} (side : s.SameSide s') {d d' : α}
    (meet : s.parent h d = s'.parent h d') :
    d = d' ∨ ∃ p p', s.pair d = some p ∧ s'.pair d' = some p' ∧
      p ≠ p' ∧ h p.1 p.2 = h p'.1 p'.2 := by
  by_cases eq : d = d'
  · exact .inl eq
  · right
    cases side with
    | alone => exact absurd meet eq
    | onLeft a b => exact ⟨(a, d), (b, d'), rfl, rfl, by simp [eq], meet⟩
    | onRight a b => exact ⟨(d, a), (d', b), rfl, rfl, by simp [eq], meet⟩

/-- Two climbs that end in the same value start from the same digest, unless
two different pairs hashed on the way have the same hash. -/
theorem climb_eq_or_collision {ss ss' : List (Sibling α)}
    (shape : List.Forall₂ Sibling.SameSide ss ss') {d d' : α}
    (meet : climb h d ss = climb h d' ss') :
    d = d' ∨ ∃ p ∈ hashedPairs h d ss, ∃ p' ∈ hashedPairs h d' ss',
      p ≠ p' ∧ h p.1 p.2 = h p'.1 p'.2 := by
  induction shape generalizing d d' with
  | nil => exact .inl meet
  | cons side _ ih =>
    rcases ih meet with parents | ⟨p, hp, p', hp', collision⟩
    · rcases Sibling.eq_or_collision h side parents with eq | ⟨p, p', hp, hp', collision⟩
      · exact .inl eq
      · refine .inr ⟨p, ?_, p', ?_, collision⟩
        · simp [hashedPairs, hp]
        · simp [hashedPairs, hp']
    · refine .inr ⟨p, ?_, p', ?_, collision⟩
      · exact List.mem_append_right _ hp
      · exact List.mem_append_right _ hp'

end HashTree
