import Kvsev.Memory.Block

/-!
# The heap of an allocator

A heap remembers every block it handed out, in order, and which of them were
given back. A pointer is `NULL` or the number of a block. Using or releasing a
block that was given back has no result, so a computation that returns released
each block at most once. The sizes asked for are recorded, with the requests
that failed.

`Heap.Owned` is the state of a program that keeps one pointer: whatever block is
still live is the last one obtained, and the pointer points at it.
-/

namespace Memory

/-- `NULL`, or the number of a block. -/
abbrev Pointer := Option Nat

structure Heap (α : Type) where
  /-- The blocks in the order they were obtained; a released one is `none`. -/
  blocks : List (Option (Block α))
  /-- The sizes of all requests, latest first. -/
  requests : List Nat

namespace Heap

variable {α : Type} {n : Nat} {h h' : Heap α} {p q : Pointer}

def empty : Heap α := ⟨[], []⟩

/-- The block with that number, unless it was released. -/
def live? (h : Heap α) (i : Nat) : Option (Block α) := (h.blocks[i]?).join

def setBlock (h : Heap α) (i : Nat) (b : Option (Block α)) : Heap α :=
  { h with blocks := h.blocks.set i b }

/-- Hand out a new block. -/
def push (h : Heap α) (b : Block α) : Heap α := { h with blocks := h.blocks ++ [some b] }

def request (h : Heap α) (size : Nat) : Heap α := { h with requests := size :: h.requests }

/-- The `malloc` of C. The outcome is an argument, with the contents of the fresh
memory. -/
def malloc (h : Heap α) (size : Nat) (fresh : Option (Nat → α)) : Pointer × Heap α :=
  match fresh with
  | none => (none, h.request size)
  | some cell => (some h.blocks.length, (h.request size).push ⟨size, cell⟩)

/-- The `free` of C. -/
def free (h : Heap α) (p : Pointer) : Exec (Heap α) :=
  match p with
  | none => return h
  | some i => do
    let _ ← Exec.access (h.live? i)
    return h.setBlock i none

/-- The `realloc` of C. A request for zero bytes releases the block and returns
`NULL`; one that fails leaves the block alone. -/
def realloc (h : Heap α) (p : Pointer) (size : Nat) (fresh : Option (Nat → α)) :
    Exec (Pointer × Heap α) :=
  match p with
  | none => return h.malloc size fresh
  | some i => do
    let block ← Exec.access (h.live? i)
    let h := h.request size
    if size = 0 then return (none, h.setBlock i none)
    else match fresh with
      | none => return (none, h)
      | some cell =>
        return (some h.blocks.length, (h.setBlock i none).push (block.resize size cell))

/-- Copy `data` behind a pointer. -/
def write (h : Heap α) (p : Pointer) (off : Nat) (data : Vector α n) : Exec (Heap α) := do
  let i ← Exec.access p
  let block ← Exec.access (h.live? i)
  let block ← Exec.access (block.write? off data)
  return h.setBlock i (some block)

/-- Copy `n` cells from behind a pointer. -/
def read (h : Heap α) (p : Pointer) (off n : Nat) : Exec (Vector α n) := do
  let i ← Exec.access p
  let block ← Exec.access (h.live? i)
  Exec.access (block.read? off n)

/-- Every block was given back. -/
def Released (h : Heap α) : Prop := ∀ b ∈ h.blocks, b = none

/-- A live block is the last one obtained, and the pointer points at it. -/
def Owned (h : Heap α) (p : Pointer) : Prop :=
  ∀ i b, h.live? i = some b → p = some i ∧ i + 1 = h.blocks.length

variable {i : Nat} {b : Block α}

theorem live?_eq_some : h.live? i = some b ↔ h.blocks[i]? = some (some b) := by
  simp [live?, Option.join_eq_some_iff]

theorem lt_of_live? (live : h.live? i = some b) : i < h.blocks.length := by
  obtain ⟨lt, -⟩ := List.getElem?_eq_some_iff.mp (live?_eq_some.mp live)
  exact lt

@[simp] theorem live?_request (size i : Nat) : (h.request size).live? i = h.live? i := rfl

@[simp] theorem blocks_request (size : Nat) : (h.request size).blocks = h.blocks := rfl

@[simp] theorem length_setBlock (i : Nat) (b : Option (Block α)) :
    (h.setBlock i b).blocks.length = h.blocks.length := List.length_set

theorem live?_setBlock_self {b : Option (Block α)} (lt : i < h.blocks.length) :
    (h.setBlock i b).live? i = b := by
  simp [live?, setBlock, lt]

theorem live?_setBlock_ne {j : Nat} {b : Option (Block α)} (ne : i ≠ j) :
    (h.setBlock i b).live? j = h.live? j := by
  simp [live?, setBlock, List.getElem?_set_ne ne]

@[simp] theorem live?_push_last (b : Block α) : (h.push b).live? h.blocks.length = some b := by
  simp [live?, push]

theorem live?_push_lt (lt : i < h.blocks.length) : (h.push b).live? i = h.live? i := by
  simp [live?, push, List.getElem?_append_left lt]

@[simp] theorem length_push (b : Block α) : (h.push b).blocks.length = h.blocks.length + 1 := by
  simp [push]

theorem released_iff : h.Released ↔ ∀ i, h.live? i = none := by
  constructor
  · intro released i
    cases found : h.live? i with
    | none => rfl
    | some b => cases released _ (List.mem_of_getElem? (live?_eq_some.mp found))
  · intro dead b mem
    obtain ⟨i, lt, at_⟩ := List.getElem_of_mem mem
    cases b with
    | none => rfl
    | some b =>
      have live : h.live? i = some b := by
        rw [live?_eq_some, List.getElem?_eq_getElem lt, at_]
      rw [dead i] at live
      cases live

theorem Released.owned (released : h.Released) (p : Pointer) : h.Owned p := by
  intro i b live
  rw [released_iff.mp released i] at live
  cases live

theorem Owned.released (owned : h.Owned none) : h.Released := by
  refine released_iff.mpr fun i => ?_
  cases found : h.live? i with
  | none => rfl
  | some b => cases (owned i b found).1

/-- A block handed out when nothing is live is the only one. -/
theorem Released.push (released : h.Released) (b : Block α) :
    (h.push b).Owned (some h.blocks.length) := by
  intro i b' live
  by_cases last : i = h.blocks.length
  · subst last
    exact ⟨rfl, (length_push b).symm⟩
  · have lt := lt_of_live? live
    rw [length_push] at lt
    rw [live?_push_lt (by omega), released_iff.mp released i] at live
    cases live

/-- Releasing what the only pointer points at leaves nothing. -/
theorem Owned.setBlock_none (owned : h.Owned (some i)) : (h.setBlock i none).Released := by
  rw [released_iff]
  intro j
  cases found : (h.setBlock i none).live? j with
  | none => rfl
  | some b =>
    by_cases same : i = j
    · subst same
      have lt := lt_of_live? found
      rw [live?_setBlock_self (by simpa using lt)] at found
      cases found
    · rw [live?_setBlock_ne same] at found
      exact absurd (Option.some.inj (owned j b found).1) same

theorem Owned.setBlock_some {b' : Block α} (owned : h.Owned (some i))
    (live : h.live? i = some b') : (h.setBlock i (some b)).Owned (some i) := by
  intro j c found
  rw [length_setBlock]
  by_cases same : i = j
  · subst same
    exact ⟨rfl, (owned i b' live).2⟩
  · rw [live?_setBlock_ne same] at found
    exact owned j c found

theorem Owned.request (owned : h.Owned p) (size : Nat) : (h.request size).Owned p := owned

theorem Released.malloc (released : h.Released) (size : Nat) (fresh : Option (Nat → α)) :
    (h.malloc size fresh).2.Owned (h.malloc size fresh).1 := by
  cases fresh with
  | none => exact Released.owned (h := h.request size) released none
  | some cell => exact Released.push (h := h.request size) released _

theorem Owned.write {off : Nat} {data : Vector α n} (owned : h.Owned p)
    (written : h.write p off data = .ok h') : h'.Owned p := by
  cases p with
  | none => cases written
  | some i =>
    simp only [Heap.write, Exec.access_some, Exec.ok_bind, Exec.bind_eq_ok] at written
    obtain ⟨block, found, block', -, done⟩ := written
    cases done
    exact owned.setBlock_some (Exec.access_eq_ok.mp found)

variable {size : Nat}

/-- After `realloc` the program keeps the new pointer, or the old one if there is
no new one. -/
theorem Owned.realloc {fresh : Option (Nat → α)} (owned : h.Owned p)
    (done : h.realloc p size fresh = .ok (q, h')) :
    (q = none → h'.Owned p) ∧ (q ≠ none → h'.Owned q) := by
  cases p with
  | none =>
    have made : h.malloc size fresh = (q, h') := Except.ok.inj done
    have owned' := owned.released.malloc size fresh
    rw [made] at owned'
    exact ⟨fun null => null ▸ owned', fun _ => owned'⟩
  | some i =>
    simp only [Heap.realloc, Exec.bind_eq_ok] at done
    obtain ⟨block, -, done⟩ := done
    have released : ((h.request size).setBlock i none).Released :=
      (owned.request size).setBlock_none
    split at done
    · cases done
      exact ⟨fun _ => released.owned _, fun ne => absurd rfl ne⟩
    cases fresh with
    | none =>
      cases done
      exact ⟨fun _ => owned.request size, fun ne => absurd rfl ne⟩
    | some cell =>
      cases done
      refine ⟨fun null => (nomatch null), fun _ => ?_⟩
      have pushed := released.push (block.resize size cell)
      rwa [length_setBlock] at pushed

/-- The second heap has one more live block than the first, behind that pointer. -/
def Lends (h h' : Heap α) (size : Nat) : Pointer → Prop
  | none => ∀ i, h'.live? i = h.live? i
  | some i => h.live? i = none ∧ (∃ b, h'.live? i = some b ∧ b.size = size) ∧
      ∀ j, j ≠ i → h'.live? j = h.live? j

theorem live?_length : h.live? h.blocks.length = none := by
  simp [live?]

theorem lends_malloc (h : Heap α) (size : Nat) (cell : Nat → α) :
    h.Lends (h.malloc size (some cell)).2 size (h.malloc size (some cell)).1 := by
  have here := live?_push_last (h := h.request size) ⟨size, cell⟩
  refine ⟨live?_length, ⟨⟨size, cell⟩, here, rfl⟩, fun j ne => ?_⟩
  by_cases lt : j < h.blocks.length
  · exact live?_push_lt (h := h.request size) lt
  · have before : h.blocks[j]? = none := List.getElem?_eq_none (by omega)
    have after : (h.blocks ++ [some ⟨size, cell⟩])[j]? = none :=
      List.getElem?_eq_none (by rw [List.length_append, List.length_singleton]; omega)
    simp [malloc, live?, push, before, after]

/-- A lent block can be filled. -/
theorem Lends.write (lends : h.Lends h' size (some i)) (data : Vector α size) :
    ∃ h'', h'.write (some i) 0 data = .ok h'' ∧ h.Lends h'' size (some i) := by
  obtain ⟨dead, ⟨b, live, rfl⟩, others⟩ := lends
  obtain ⟨b', written, size⟩ := Block.write?_of_le data (show 0 + b.size ≤ b.size by omega)
  refine ⟨h'.setBlock i (some b'), by simp [Heap.write, live, written], dead,
    ⟨b', live?_setBlock_self (lt_of_live? live), size⟩, fun j ne => ?_⟩
  rw [live?_setBlock_ne (Ne.symm ne), others j ne]

theorem Lends.read (lends : h.Lends h' size (some i)) :
    ∃ data, h'.read (some i) 0 size = .ok data := by
  obtain ⟨-, ⟨b, live, rfl⟩, -⟩ := lends
  have inside := Block.read?_of_le (show 0 + b.size ≤ b.size by omega)
  simp only [Heap.read, live, inside, Exec.access_some, Exec.ok_bind]
  exact ⟨_, rfl⟩

/-- Given back, it leaves the heap as it was before. -/
theorem Lends.free (lends : h.Lends h' size p) :
    ∃ h'', h'.free p = .ok h'' ∧ ∀ i, h''.live? i = h.live? i := by
  cases p with
  | none => exact ⟨h', rfl, lends⟩
  | some i =>
    obtain ⟨dead, ⟨b, live, -⟩, others⟩ := lends
    refine ⟨h'.setBlock i none, by simp [Heap.free, live], fun j => ?_⟩
    by_cases same : j = i
    · subst same
      rw [live?_setBlock_self (lt_of_live? live), dead]
    · rw [live?_setBlock_ne (Ne.symm same), others j same]

theorem Lends.not_released (lends : h.Lends h' size (some i)) : ¬ h'.Released := by
  obtain ⟨-, ⟨b, live, -⟩, -⟩ := lends
  intro released
  rw [released_iff.mp released i] at live
  cases live

theorem released_congr (same : ∀ i, h'.live? i = h.live? i) : h'.Released ↔ h.Released := by
  simp only [released_iff, same]

/-- The last pointer released. -/
theorem Owned.free (owned : h.Owned p) (done : h.free p = .ok h') : h'.Released := by
  cases p with
  | none =>
    cases done
    exact owned.released
  | some i =>
    simp only [Heap.free, Exec.bind_eq_ok] at done
    obtain ⟨_, -, done⟩ := done
    cases done
    exact owned.setBlock_none

end Heap

end Memory
