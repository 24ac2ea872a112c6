import Mathlib.Tactic.Common

/-!
# Checked access to allocated memory

A block is what one successful allocation returns: a size, and one cell for
every address. Cells past the size exist only so that the contents are an
ordinary function; no checked access reaches them.

Reads and writes move a fixed number of cells at once, as `memcpy` does. An
access that leaves the block has no result, so a caller that must not fail has
to prove its bounds. Growing a block keeps the old cells and takes the new ones
from the allocator, whose fresh memory has arbitrary contents.
-/

namespace Memory

universe u

/-- One allocated block. Addresses are offsets from its start. -/
structure Block (α : Type u) where
  size : Nat
  cell : Nat → α

namespace Block

variable {α : Type u} {n m : Nat}

/-- Copy `n` cells out of the block, starting at `off`. -/
def read? (b : Block α) (off n : Nat) : Option (Vector α n) :=
  if off + n ≤ b.size then some (Vector.ofFn fun i : Fin n => b.cell (off + i)) else none

/-- Copy `data` into the block, starting at `off`. -/
def write? (b : Block α) (off : Nat) (data : Vector α n) : Option (Block α) :=
  if off + n ≤ b.size then
    some { b with cell := fun j =>
      if h : off ≤ j ∧ j < off + n then data[j - off] else b.cell j }
  else none

/-- A resized block keeps the cells both sizes share. The others are the
indeterminate contents of fresh memory. -/
def resize (b : Block α) (size : Nat) (fresh : Nat → α) : Block α where
  size := size
  cell := fun j => if j < b.size then b.cell j else fresh j

@[simp] theorem resize_size (b : Block α) (size : Nat) (fresh : Nat → α) :
    (b.resize size fresh).size = size := rfl

variable {b : Block α} {off : Nat}

theorem read?_of_le (h : off + n ≤ b.size) :
    b.read? off n = some (Vector.ofFn fun i : Fin n => b.cell (off + i)) := if_pos h

theorem write?_of_le (data : Vector α n) (h : off + n ≤ b.size) :
    ∃ b', b.write? off data = some b' ∧ b'.size = b.size := by
  exact ⟨_, if_pos h, rfl⟩

/-- What was written is what is read back. -/
theorem read?_write?_self {b' : Block α} {data : Vector α n}
    (h : b.write? off data = some b') : b'.read? off n = some data := by
  unfold write? at h
  split at h
  · rename_i hle
    cases h
    rw [read?_of_le (by simpa using hle)]
    congr 1
    ext i hi
    simp
  · cases h

/-- A write does not disturb cells outside its own range. -/
theorem read?_write?_disjoint {b' : Block α} {other : Nat} {data : Vector α n}
    (h : b.write? off data = some b') (apart : other + m ≤ off ∨ off + n ≤ other) :
    b'.read? other m = b.read? other m := by
  unfold write? at h
  split at h
  · cases h
    simp only [read?]
    split
    · congr 1
      ext i hi
      have outside : ¬ (off ≤ other + i ∧ other + i < off + n) := by omega
      simp [outside]
    · rfl
  · cases h

/-- Growing or shrinking keeps every range that lies in both sizes. -/
theorem read?_resize {size : Nat} {fresh : Nat → α}
    (old : off + n ≤ b.size) (new : off + n ≤ size) :
    (b.resize size fresh).read? off n = b.read? off n := by
  rw [read?_of_le old, read?_of_le (by simpa using new)]
  congr 1
  ext i hi
  have inside : off + i < b.size := by omega
  simp [resize, inside]

end Block

/-- Why a call never returns to its caller. -/
inductive Trap where
  /-- An `assert` failed and the process aborted. -/
  | assertion
  /-- An address outside every live block was used. -/
  | invalidAccess
  deriving DecidableEq, Repr

/-- Computations that may stop the process. -/
abbrev Exec := Except Trap

namespace Exec

/-- The `assert` of C. -/
def assert (p : Prop) [Decidable p] : Exec Unit :=
  if p then pure () else throw .assertion

/-- A checked access, with its failure made a trap. -/
def access : Option α → Exec α
  | some a => pure a
  | none => throw .invalidAccess

theorem assert_of {p : Prop} [Decidable p] (h : p) : assert p = .ok () := if_pos h

@[simp] theorem access_some (a : α) : access (some a) = .ok a := rfl

@[simp] theorem access_none : access (none : Option α) = .error .invalidAccess := rfl

@[simp] theorem ok_bind (a : α) (f : α → Exec β) : (Except.ok a >>= f) = f a := rfl

@[simp] theorem error_bind (t : Trap) (f : α → Exec β) :
    ((Except.error t : Exec α) >>= f) = .error t := rfl

@[simp] theorem pure_eq_ok (a : α) : (pure a : Exec α) = .ok a := rfl

theorem access_eq_ok {o : Option α} {a : α} : access o = .ok a ↔ o = some a := by
  cases o <;> simp

/-- Every result of a sequence comes from a result of its first part. -/
theorem bind_eq_ok {x : Exec α} {f : α → Exec β} {b : β} :
    (x >>= f) = .ok b ↔ ∃ a, x = .ok a ∧ f a = .ok b := by
  cases x <;> simp

/-- A sequence returns when its first part does and then the rest does. -/
theorem exists_bind_eq_ok {x : Exec α} {f : α → Exec β} :
    (∃ b, (x >>= f) = .ok b) ↔ ∃ a, x = .ok a ∧ ∃ b, f a = .ok b := by
  cases x <;> simp

end Exec

end Memory
