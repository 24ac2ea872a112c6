import Mathlib.Order.BooleanAlgebra.Set
import Mathlib.Data.List.Nodup

/-!
# Things that are kept in boxes

A family of lists holds a set of things if each of them lies in exactly one of the lists,
at one place, and the lists hold nothing else. Two rules cover what programs do with such
lists: a thing is taken out, or a thing that is in no box is put into one.
-/

namespace Placed

open Function

variable {α κ : Type} {boxes boxes' : κ → List α} {live : Set α} {a : α} {k : κ}

/-- Each of the things lies in one box, and in one place there. -/
structure InBoxes (boxes : κ → List α) (live : Set α) : Prop where
  nodup : ∀ k, (boxes k).Nodup
  once : ∀ {a k k'}, a ∈ boxes k → a ∈ boxes k' → k = k'
  mem : ∀ a, a ∈ live ↔ ∃ k, a ∈ boxes k

namespace InBoxes

theorem empty : InBoxes (fun _ : κ => ([] : List α)) ∅ :=
  ⟨fun _ => List.nodup_nil, nofun, fun _ => ⟨nofun, fun ⟨_, mem⟩ => nomatch mem⟩⟩

variable [DecidableEq κ]

theorem put (inBoxes : InBoxes boxes live) (new : a ∉ live) (k : κ) :
    InBoxes (update boxes k (boxes k ++ [a])) (insert a live) := by
  have nowhere (k' : κ) : a ∉ boxes k' := fun here => new ((inBoxes.mem a).mpr ⟨k', here⟩)
  have mem_iff (b : α) (k' : κ) : b ∈ update boxes k (boxes k ++ [a]) k' ↔
      b ∈ boxes k' ∨ b = a ∧ k' = k := by
    by_cases same : k' = k
    · subst same
      simp
    · simp [same]
  refine ⟨fun k' => ?_, fun {b k₁ k₂} first second => ?_, fun b => ?_⟩
  · by_cases same : k' = k
    · subst same
      rw [update_self, ← List.concat_eq_append]
      exact (inBoxes.nodup k').concat (nowhere k')
    · rw [update_of_ne same]
      exact inBoxes.nodup k'
  · rw [mem_iff] at first second
    obtain first | ⟨rfl, rfl⟩ := first
    · obtain second | ⟨rfl, rfl⟩ := second
      · exact inBoxes.once first second
      · exact absurd first (nowhere k₁)
    · obtain second | ⟨-, rfl⟩ := second
      · exact absurd second (nowhere k₂)
      · rfl
  · rw [Set.mem_insert_iff, inBoxes.mem b]
    constructor
    · rintro (rfl | ⟨k', here⟩)
      · exact ⟨k, (mem_iff b k).mpr (.inr ⟨rfl, rfl⟩)⟩
      · exact ⟨k', (mem_iff b k').mpr (.inl here)⟩
    · rintro ⟨k', here⟩
      obtain here | ⟨rfl, -⟩ := (mem_iff b k').mp here
      · exact .inr ⟨k', here⟩
      · exact .inl rfl

/-- Something is taken out of its box. -/
theorem take (inBoxes : InBoxes boxes live) {xs ys : List α} (box : boxes k = xs ++ a :: ys) :
    InBoxes (update boxes k (xs ++ ys)) (live \ {a}) := by
  have nodup : a ∉ xs ++ ys ∧ (xs ++ ys).Nodup := by
    have whole := inBoxes.nodup k
    rw [box] at whole
    exact List.nodup_cons.mp (List.nodup_middle.mp whole)
  have here : a ∈ boxes k := by
    rw [box]
    exact List.mem_append_right xs List.mem_cons_self
  have mem_iff (b : α) (k' : κ) : b ∈ update boxes k (xs ++ ys) k' ↔
      b ∈ boxes k' ∧ b ≠ a := by
    by_cases same : k' = k
    · subst same
      rw [update_self, box, List.mem_append, List.mem_append, List.mem_cons]
      constructor
      · intro either
        refine ⟨either.imp_right .inr, ?_⟩
        rintro rfl
        exact nodup.1 (List.mem_append.mpr either)
      · rintro ⟨first | rfl | second, other⟩
        · exact .inl first
        · exact absurd rfl other
        · exact .inr second
    · rw [update_of_ne same]
      refine ⟨fun there => ⟨there, ?_⟩, And.left⟩
      rintro rfl
      exact same (inBoxes.once there here)
  refine ⟨fun k' => ?_, fun {b k₁ k₂} first second => ?_, fun b => ?_⟩
  · by_cases same : k' = k
    · subst same
      rw [update_self]
      exact nodup.2
    · rw [update_of_ne same]
      exact inBoxes.nodup k'
  · exact inBoxes.once ((mem_iff b k₁).mp first).1 ((mem_iff b k₂).mp second).1
  · rw [Set.mem_sdiff, Set.mem_singleton_iff, inBoxes.mem b]
    constructor
    · rintro ⟨⟨k', there⟩, other⟩
      exact ⟨k', (mem_iff b k').mpr ⟨there, other⟩⟩
    · rintro ⟨k', there⟩
      obtain ⟨there, other⟩ := (mem_iff b k').mp there
      exact ⟨⟨k', there⟩, other⟩

/-- Something goes from one box to another. -/
theorem move (inBoxes : InBoxes boxes live) {xs ys : List α} (box : boxes k = xs ++ a :: ys)
    {k' : κ} (other : k' ≠ k) :
    InBoxes (update (update boxes k (xs ++ ys)) k' (boxes k' ++ [a])) live := by
  have mem : a ∈ live := (inBoxes.mem a).mpr ⟨k, by rw [box]; simp⟩
  have put := (inBoxes.take box).put (fun still => still.2 rfl) k'
  rw [update_of_ne other, Set.insert_sdiff_self_of_mem mem] at put
  exact put

end InBoxes

end Placed
