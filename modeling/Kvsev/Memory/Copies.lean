import Kvsev.Memory.Block
import Mathlib.Data.List.Basic

/-!
# Copying between blocks

`slice` shows part of a block as a list. A `memcpy` needs both its ranges inside
their blocks; it makes the one show what the other shows and leaves the rest of
the destination alone.
-/

namespace Memory

namespace Block

variable {α : Type} {b b' src dst dst' : Block α} {off soff doff m n : Nat}

/-- The `n` cells from `off` on. -/
def slice (b : Block α) (off n : Nat) : List α := (List.range n).map fun i => b.cell (off + i)

@[simp] theorem length_slice : (b.slice off n).length = n := by simp [slice]

@[simp] theorem slice_zero : b.slice off 0 = [] := rfl

theorem slice_succ (b : Block α) (off n : Nat) :
    b.slice off (n + 1) = b.cell off :: b.slice (off + 1) n := by
  simp [slice, List.range_succ_eq_map, Nat.add_assoc, Nat.add_comm 1]

theorem slice_add (b : Block α) (off m n : Nat) :
    b.slice off (m + n) = b.slice off m ++ b.slice (off + m) n := by
  simp [slice, List.range_add, Nat.add_assoc]

theorem take_slice (le : m ≤ n) : (b.slice off n).take m = b.slice off m := by
  obtain ⟨k, rfl⟩ := Nat.exists_eq_add_of_le le
  rw [slice_add, List.take_append_of_le_length (by simp), List.take_of_length_le (by simp)]

theorem drop_slice (le : m ≤ n) : (b.slice off n).drop m = b.slice (off + m) (n - m) := by
  obtain ⟨k, rfl⟩ := Nat.exists_eq_add_of_le le
  rw [slice_add, List.drop_append_of_le_length (by simp), List.drop_of_length_le (by simp),
    List.nil_append, Nat.add_sub_cancel_left]

/-- The two parts of what a slice shows. -/
theorem slice_of_append {xs ys : List α} (shown : b.slice off n = xs ++ ys) :
    b.slice off xs.length = xs ∧ b.slice (off + xs.length) ys.length = ys := by
  obtain rfl : n = xs.length + ys.length := by simpa using congrArg List.length shown
  rw [slice_add] at shown
  exact List.append_inj shown (by simp)

theorem slice_congr (same : ∀ j, off ≤ j → j < off + n → b'.cell j = b.cell j) :
    b'.slice off n = b.slice off n := by
  refine List.map_congr_left fun i mem => ?_
  have lt := List.mem_range.mp mem
  exact same (off + i) (by omega) (by omega)

/-- The `memcpy` of C, between two objects. -/
def memcpy (dst : Block α) (doff : Nat) (src : Block α) (soff n : Nat) : Exec (Block α) := do
  let data ← Exec.access (src.read? soff n)
  Exec.access (dst.write? doff data)

/-- The cells of the second block in that range come from the first. -/
structure Copies (dst : Block α) (doff : Nat) (src : Block α) (soff n : Nat) (dst' : Block α) :
    Prop where
  size : dst'.size = dst.size
  shows : dst'.slice doff n = src.slice soff n
  others : ∀ j, j < doff ∨ doff + n ≤ j → dst'.cell j = dst.cell j

theorem memcpy_spec (readable : soff + n ≤ src.size) (writable : doff + n ≤ dst.size) :
    ∃ dst', memcpy dst doff src soff n = .ok dst' ∧ Copies dst doff src soff n dst' := by
  let data : Vector α n := Vector.ofFn fun i : Fin n => src.cell (soff + i)
  let result : Block α := { dst with cell := fun j =>
    if inside : doff ≤ j ∧ j < doff + n then data[j - doff] else dst.cell j }
  have written : dst.write? doff data = some result := if_pos writable
  refine ⟨result, ?_, rfl, ?_, fun j outside => ?_⟩
  · rw [memcpy, read?_of_le readable, Exec.access_some, Exec.ok_bind, written, Exec.access_some]
  · refine List.map_congr_left fun i mem => ?_
    have lt := List.mem_range.mp mem
    simp [result, data, lt]
  · have out : ¬(doff ≤ j ∧ j < doff + n) := by omega
    simp [result, out]

/-- Reading past the end of the source. -/
theorem memcpy_outside (outside : src.size < soff + n) :
    memcpy dst doff src soff n = .error .invalidAccess := by
  have none : src.read? soff n = none := if_neg (by omega)
  rw [memcpy, none, Exec.access_none, Exec.error_bind]

/-- A copy that was made was inside its destination. -/
theorem copies_of_memcpy (ran : memcpy dst doff src soff n = .ok dst') :
    Copies dst doff src soff n dst' ∧ doff + n ≤ dst.size := by
  by_cases readable : soff + n ≤ src.size
  · by_cases writable : doff + n ≤ dst.size
    · obtain ⟨_, same, copies⟩ := memcpy_spec readable writable
      cases same.symm.trans ran
      exact ⟨copies, writable⟩
    · simp [memcpy, read?_of_le readable, write?, writable] at ran
  · rw [memcpy_outside (Nat.lt_of_not_le readable)] at ran
    cases ran

/-- What lies apart from the range is still shown. -/
theorem Copies.slice_of_apart (copied : Copies dst doff src soff n dst')
    (apart : off + m ≤ doff ∨ doff + n ≤ off) : dst'.slice off m = dst.slice off m :=
  slice_congr fun j _ _ => copied.others j (by omega)

/-- A copy right behind a slice makes it longer. -/
theorem Copies.slice_append (copied : Copies dst (off + m) src soff n dst') :
    dst'.slice off (m + n) = dst.slice off m ++ src.slice soff n := by
  rw [slice_add, copied.shows, copied.slice_of_apart (.inl (Nat.le_refl _))]

/-- An object that holds a list. -/
def ofList [Inhabited α] (xs : List α) : Block α := ⟨xs.length, fun i => xs.getD i default⟩

@[simp] theorem slice_ofList [Inhabited α] (xs : List α) : (ofList xs).slice 0 xs.length = xs := by
  refine List.ext_getElem (by simp) fun i h₁ h₂ => ?_
  simp [slice, ofList, h₂]

/-- The `memset` of C. -/
def memset (dst : Block α) (doff : Nat) (a : α) (n : Nat) : Exec (Block α) :=
  dst.memcpy doff ⟨n, fun _ => a⟩ 0 n

end Block

end Memory
