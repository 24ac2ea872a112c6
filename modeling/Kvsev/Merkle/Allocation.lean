import Kvsev.Memory.Heap
import Kvsev.Merkle.ArrayList

/-!
# The array list and its allocator

`MtAl` shows what the `store` pointer refers to. Here the pointer is a number of
a block on a heap, so that a second release and a lost block can be told apart
from a correct use. Each function is the one of `ArrayList` with the heap
threaded through it, and `view` takes one model to the other.

`AlHeap.Holds` adds to `MtAl.Holds` that the store is the only block still live.
Each operation has one lemma over it, which also says whether the pointer is
left dangling.
-/

namespace Kvsev.Merkle.OnHeap

open Memory

/-- `mt_al_t`, with the heap its pointer points into. -/
structure AlHeap where
  elems : Nat
  store : Pointer
  heap : Heap UInt8

/-- `mt_al_create` -/
def mtAlCreate : AlHeap := { elems := 0, store := none, heap := Heap.empty }

/-- `mt_al_delete`, with the heap it leaves. -/
def mtAlDelete (al : AlHeap) : Exec (Heap UInt8) := al.heap.free al.store

/-- The last statements of `mt_al_add`. -/
def mtAlAppend (al : AlHeap) (hash : Digest) : Exec (MtError × AlHeap) := do
  let heap ← al.heap.write al.store (u32 (al.elems * hashLength)) hash
  return (.success, { al with elems := u32 (al.elems + 1), heap })

/-- `mt_al_add` -/
def mtAlAdd (al : AlHeap) (hash : Option Digest) (alloc : Alloc) : Exec (MtError × AlHeap) := do
  Exec.assert (al.elems < mtAlMaxElems)
  match hash with
  | none => return (.illegalParam, al)
  | some hash =>
    if al.elems = 0 then
      let (store, heap) := al.heap.malloc hashLength alloc
      match store with
      | none => return (.outOfMemory, { al with store := none, heap })
      | some i => mtAlAppend { al with store := some i, heap } hash
    else if isPowerOfTwo al.elems then
      if u32 (al.elems <<< 1) < al.elems ∨ mtAlMaxElems < u32 (al.elems <<< 1) then
        return (.illegalState, al)
      else
        let (tmp, heap) ← al.heap.realloc al.store (u32 (al.elems * 2 * hashLength)) alloc
        match tmp with
        | none => return (.outOfMemory, { al with heap })
        | some i => mtAlAppend { al with store := some i, heap } hash
    else mtAlAppend al hash

/-- `mt_al_update` -/
def mtAlUpdate (al : AlHeap) (hash : Option Digest) (offset : Nat) :
    Exec (MtError × AlHeap) := do
  Exec.assert (al.elems < mtAlMaxElems)
  match hash with
  | none => return (.illegalParam, al)
  | some hash =>
    if offset < al.elems then
      let heap ← al.heap.write al.store (u32 (offset * hashLength)) hash
      return (.success, { al with heap })
    else return (.illegalParam, al)

/-- `mt_al_add_or_update` -/
def mtAlAddOrUpdate (al : AlHeap) (hash : Option Digest) (offset : Nat) (alloc : Alloc) :
    Exec (MtError × AlHeap) := do
  Exec.assert (al.elems < mtAlMaxElems)
  if hash.isNone ∨ al.elems < offset then return (.illegalParam, al)
  else if offset = al.elems then mtAlAdd al hash alloc
  else mtAlUpdate al hash offset

/-- `mt_al_truncate` -/
def mtAlTruncate (al : AlHeap) (elems : Nat) (alloc : Alloc) : Exec (MtError × AlHeap) := do
  Exec.assert (al.elems < mtAlMaxElems)
  if elems < al.elems then
    if elems = 0 then
      let heap ← al.heap.free al.store
      return (.success, { al with elems, heap })
    else
      let (tmp, heap) ← al.heap.realloc al.store (u32 (roundNextPowerTwo elems * hashLength)) alloc
      match tmp with
      | none => return (.outOfMemory, { al with elems, heap })
      | some i => return (.success, { elems, store := some i, heap })
  else return (.illegalParam, al)

/-- `mt_al_get` -/
def mtAlGet (al : AlHeap) (offset : Nat) : Exec (Option Digest) := do
  Exec.assert (al.elems < mtAlMaxElems)
  if offset < al.elems then
    let hash ← al.heap.read al.store (u32 (offset * hashLength)) hashLength
    return some hash
  else return none

/-! ## What the pointer refers to -/

/-- The memory behind a pointer. -/
def storeAt (heap : Heap UInt8) : Pointer → Store
  | none => .null
  | some i =>
    match heap.live? i with
    | some block => .live block
    | none => .freed

def AlHeap.view (al : AlHeap) : MtAl := { elems := al.elems, store := storeAt al.heap al.store }

variable {heap : Heap UInt8} {block : Block UInt8}

theorem storeAt_live {i : Nat}
    (live : heap.live? i = some block) : storeAt heap (some i) = .live block := by
  simp [storeAt, live]

theorem storeAt_released {i : Nat} (dead : heap.live? i = none) :
    storeAt heap (some i) = .freed := by
  simp [storeAt, dead]

variable {p : Pointer}

theorem live_of_storeAt
    (live : storeAt heap p = .live block) : ∃ i, p = some i ∧ heap.live? i = some block := by
  cases p with
  | none => cases live
  | some i =>
    cases found : heap.live? i with
    | none => rw [storeAt_released found] at live; cases live
    | some block' =>
      rw [storeAt_live found] at live
      cases live
      exact ⟨i, rfl, found⟩

theorem null_of_storeAt (null : storeAt heap p = .null) : p = none := by
  cases p with
  | none => rfl
  | some i =>
    rw [storeAt] at null
    split at null <;> cases null

variable {hash : Digest}

/-- Writing through the pointer is writing into the memory behind it. -/
theorem write_of_copyIn {off : Nat}
    {store : Store} (copied : (storeAt heap p).copyIn off hash = .ok store) :
    ∃ heap', heap.write p off hash = .ok heap' ∧ storeAt heap' p = store ∧
      heap'.requests = heap.requests := by
  cases target : storeAt heap p with
  | null | freed => rw [target] at copied; cases copied
  | live block =>
    obtain ⟨i, rfl, live⟩ := live_of_storeAt target
    simp only [target, Store.copyIn, Exec.bind_eq_ok] at copied
    obtain ⟨block', written, done⟩ := copied
    cases done
    refine ⟨heap.setBlock i (some block'), ?_, ?_, rfl⟩
    · simp [Heap.write, live, written]
    · exact storeAt_live (Heap.live?_setBlock_self (Heap.lt_of_live? live))

/-- `realloc` moves the pointer to the resized block, or leaves it where it was. -/
theorem realloc_of_live (target : storeAt heap p = .live block) (size : Nat) (alloc : Alloc) :
    (∃ heap', heap.realloc p size alloc = .ok (none, heap') ∧
        heap'.requests = size :: heap.requests ∧
        Merkle.realloc (.live block) size alloc = .ok (none, storeAt heap' p)) ∨
      ∃ i heap' block', heap.realloc p size alloc = .ok (some i, heap') ∧
        heap'.requests = size :: heap.requests ∧ storeAt heap' (some i) = .live block' ∧
        Merkle.realloc (.live block) size alloc = .ok (some block', .freed) := by
  obtain ⟨i, rfl, live⟩ := live_of_storeAt target
  by_cases zero : size = 0
  · refine .inl ⟨(heap.request size).setBlock i none, ?_, rfl, ?_⟩
    · simp [Heap.realloc, live, zero]
    · have dead : ((heap.request size).setBlock i none).live? i = none :=
        Heap.live?_setBlock_self (Heap.lt_of_live? live)
      rw [storeAt_released dead]
      simp [Merkle.realloc, zero]
  · cases alloc with
    | none =>
      refine .inl ⟨heap.request size, ?_, rfl, ?_⟩
      · simp [Heap.realloc, live, zero]
      · have same : (heap.request size).live? i = some block := live
        simp [Merkle.realloc, zero, storeAt_live same]
    | some cell =>
      refine .inr ⟨heap.blocks.length,
        ((heap.request size).setBlock i none).push (block.resize size cell),
        block.resize size cell, ?_, rfl, ?_, ?_⟩
      · simp [Heap.realloc, live, zero]
      · -- the new block is the last one handed out
        have last := Heap.live?_push_last (h := (heap.request size).setBlock i none)
          (block.resize size cell)
        rw [Heap.length_setBlock, Heap.blocks_request] at last
        exact storeAt_live last
      · simp [Merkle.realloc, zero]

/-- The sizes a call asked for; each has room for that many digests. -/
def Asked (before after : Heap UInt8) (count : Nat) : Prop :=
  ∃ sizes, after.requests = sizes ++ before.requests ∧
    ∀ size ∈ sizes, count * hashLength ≤ size

/-- The list is the one the store shows, and the store is the only block still
live. -/
structure AlHeap.Holds (al : AlHeap) (xs : List Digest) : Prop where
  list : al.view.Holds xs
  owned : al.heap.Owned al.store
  released : xs = [] → al.heap.Released

/-- The pointer was released and kept. -/
def AlHeap.Dangling (al : AlHeap) : Prop := al.view.store = .freed

theorem mtAlCreate_holds : mtAlCreate.Holds [] where
  list := Merkle.mtAlCreate_holds
  owned := fun i b live => by simp [mtAlCreate, Heap.empty, Heap.live?] at live
  released := fun _ b mem => by simp [mtAlCreate, Heap.empty] at mem

theorem mtAlAppend_follows (al : AlHeap) {r : MtError} {v : MtAl} {store : Store}
    (shown : storeAt al.heap al.store = store) (owned : al.heap.Owned al.store)
    (ran : Merkle.mtAlAppend { elems := al.elems, store } hash = .ok (r, v)) :
    ∃ al', mtAlAppend al hash = .ok (r, al') ∧ al'.view = v ∧ al'.heap.Owned al'.store ∧
      al'.heap.requests = al.heap.requests := by
  subst shown
  simp only [Merkle.mtAlAppend, Exec.bind_eq_ok] at ran
  obtain ⟨store, copied, done⟩ := ran
  obtain ⟨heap, written, shown, same⟩ := write_of_copyIn copied
  cases done
  refine ⟨{ al with elems := u32 (al.elems + 1), heap }, ?_, ?_, owned.write written, same⟩
  · rw [mtAlAppend]
    exact Exec.bind_eq_ok.mpr ⟨heap, written, rfl⟩
  · rw [AlHeap.view, shown]

/-- The size `mt_al_add` asks for. -/
def addRequest (elems : Nat) : Nat :=
  if elems = 0 then hashLength else u32 (elems * 2 * hashLength)

theorem mtAlAdd_follows {al : AlHeap} {xs : List Digest} {alloc : Alloc} {r : MtError} {v : MtAl}
    (holds : al.Holds xs) (ran : Merkle.mtAlAdd al.view (some hash) alloc = .ok (r, v)) :
    ∃ al', mtAlAdd al (some hash) alloc = .ok (r, al') ∧ al'.view = v ∧
      al'.heap.Owned al'.store ∧ (al'.heap.requests = al.heap.requests ∨
        al'.heap.requests = addRequest al.elems :: al.heap.requests) := by
  have elems : al.elems = xs.length := holds.list.elems
  have below : al.elems < mtAlMaxElems := by
    rw [elems]
    exact holds.list.below_max
  rw [AlHeap.view] at ran
  simp only [Merkle.mtAlAdd, Exec.assert_of below, Exec.ok_bind] at ran
  simp only [mtAlAdd, Exec.assert_of below, Exec.ok_bind]
  by_cases zero : al.elems = 0
  · have nothing := holds.released (List.eq_nil_of_length_eq_zero (elems ▸ zero))
    have owned := nothing.malloc hashLength alloc
    rw [if_pos zero] at ran ⊢
    rw [show addRequest al.elems = hashLength from if_pos zero]
    cases alloc with
    | none =>
      cases ran
      exact ⟨_, rfl, rfl, owned, .inr rfl⟩
    | some cell =>
      obtain ⟨al', done, view, owned', same⟩ :=
        mtAlAppend_follows { al with store := some _, heap := _ }
          (storeAt_live (Heap.live?_push_last _)) owned ran
      exact ⟨al', done, view, owned', .inr same⟩
  have nonempty : xs ≠ [] := by
    rintro rfl
    exact zero elems
  obtain ⟨block, -, live, -⟩ := holds.list.block nonempty
  rw [if_neg zero] at ran ⊢
  rw [show addRequest al.elems = u32 (al.elems * 2 * hashLength) from if_neg zero]
  by_cases room : ¬ isPowerOfTwo al.elems = true
  · rw [if_neg room] at ran ⊢
    obtain ⟨al', done, view, owned, same⟩ := mtAlAppend_follows al rfl holds.owned ran
    exact ⟨al', done, view, owned, .inl same⟩
  rw [if_pos (not_not.mp room)] at ran ⊢
  by_cases wraps : u32 (al.elems <<< 1) < al.elems ∨ mtAlMaxElems < u32 (al.elems <<< 1)
  · rw [if_pos wraps] at ran ⊢
    cases ran
    exact ⟨al, rfl, rfl, holds.owned, .inl rfl⟩
  rw [if_neg wraps] at ran ⊢
  rw [show storeAt al.heap al.store = _ from live] at ran
  rcases realloc_of_live live (u32 (al.elems * 2 * hashLength)) alloc with
    ⟨heap, moved, asked, moved'⟩ | ⟨i, heap, block', moved, asked, shown, moved'⟩
  · rw [moved'] at ran
    rw [moved]
    cases ran
    exact ⟨{ al with heap }, rfl, rfl, (holds.owned.realloc moved).1 rfl, .inr asked⟩
  · rw [moved'] at ran
    rw [moved]
    obtain ⟨al', done, view, owned', same⟩ := mtAlAppend_follows
      { al with store := some i, heap } shown ((holds.owned.realloc moved).2 (by rintro ⟨⟩)) ran
    exact ⟨al', done, view, owned', .inr (same.trans asked)⟩

theorem Asked.refl (heap : Heap UInt8) (count : Nat) : Asked heap heap count :=
  ⟨[], rfl, List.forall_mem_nil _⟩

namespace AlHeap.Holds

variable {al al' : AlHeap} {xs ys : List Digest}

theorem elems (holds : al.Holds xs) : al.elems = xs.length := holds.list.elems

theorem below_max (holds : al.Holds xs) : al.elems < mtAlMaxElems := by
  rw [holds.elems]
  exact holds.list.below_max

/-- Only an empty list can have lost its store. -/
theorem not_dangling (holds : al.Holds xs) (nonempty : xs ≠ []) : ¬ al.Dangling := by
  obtain ⟨block, -, live, -⟩ := holds.list.block nonempty
  rw [Dangling, live]
  nofun

/-- A list with an element in it needs no word about the empty case. -/
theorem of_nonempty (list : al.view.Holds xs) (owned : al.heap.Owned al.store)
    (nonempty : xs ≠ []) : al.Holds xs :=
  ⟨list, owned, fun empty => absurd empty nonempty⟩

/-- Appending, with the pointer it leaves behind. -/
theorem add (holds : al.Holds xs) (hash : Digest) (alloc : Alloc) (fits : xs.length ≠ 2 ^ 26) :
    ∃ r al' xs', mtAlAdd al (some hash) alloc = .ok (r, al') ∧ al'.Holds xs' ∧ ¬ al'.Dangling ∧
      Asked al.heap al'.heap xs'.length ∧
      (needsBlock xs.length = true ∧ alloc = none ∧ r = .outOfMemory ∧ xs' = xs ∨
        ¬ (needsBlock xs.length = true ∧ alloc = none) ∧ r = .success ∧ xs' = xs ++ [hash]) := by
  have few : xs.length < 2 ^ 26 := Nat.lt_of_le_of_ne holds.list.fits fits
  have enough : ∀ n ≤ xs.length + 1, n * hashLength ≤ addRequest al.elems := by
    intro n le
    have word : u32 (xs.length * 2 * hashLength) = xs.length * 2 * hashLength :=
      u32_of_lt (by simp only [hashLength]; omega)
    simp only [addRequest, holds.elems, word, hashLength]
    split <;> omega
  have asked : ∀ {al' : AlHeap}, (al'.heap.requests = al.heap.requests ∨
      al'.heap.requests = addRequest al.elems :: al.heap.requests) → ∀ n ≤ xs.length + 1,
      Asked al.heap al'.heap n := by
    rintro al' (same | more) n le
    · exact ⟨[], same, List.forall_mem_nil _⟩
    · refine ⟨[addRequest al.elems], more, fun size mem => ?_⟩
      rw [List.mem_singleton.mp mem]
      exact enough n le
  rcases mtAlAdd_outcome hash alloc holds.list few with
    ⟨needed, failed, ran⟩ | ⟨lucky, v, ran, list⟩
  · obtain ⟨al', done, view, owned, requests⟩ := mtAlAdd_follows holds ran
    have kept : al'.Holds xs ∧ ¬ al'.Dangling := by
      by_cases empty : xs = []
      · rw [if_pos empty] at view
        have null : al'.store = none := null_of_storeAt (congrArg MtAl.store view)
        refine ⟨⟨⟨?_, holds.list.fits, fun h => absurd empty h⟩, owned, fun _ => ?_⟩, ?_⟩
        · rw [view]
          exact holds.list.elems
        · exact (null ▸ owned).released
        · rw [Dangling, view]
          nofun
      · rw [if_neg empty] at view
        have holds' := of_nonempty (view ▸ holds.list) owned empty
        exact ⟨holds', holds'.not_dangling empty⟩
    exact ⟨_, al', xs, done, kept.1, kept.2, asked requests _ (Nat.le_succ _),
      .inl ⟨needed, failed, rfl, rfl⟩⟩
  · obtain ⟨al', done, view, owned, requests⟩ := mtAlAdd_follows holds ran
    have holds' : al'.Holds (xs ++ [hash]) := of_nonempty (view ▸ list) owned (by simp)
    refine ⟨_, al', xs ++ [hash], done, holds', holds'.not_dangling (by simp),
      asked requests _ ?_, .inr ⟨lucky, rfl, rfl⟩⟩
    simp

/-- Overwriting an element. -/
theorem update (holds : al.Holds xs) (hash : Digest) {offset : Nat} (lt : offset < xs.length) :
    ∃ al', mtAlUpdate al (some hash) offset = .ok (.success, al') ∧
      al'.Holds (xs.set offset hash) ∧ ¬ al'.Dangling ∧
      al'.heap.requests = al.heap.requests := by
  obtain ⟨v, ran, list⟩ := holds.list.update hash lt
  have below : al.view.elems < mtAlMaxElems := holds.below_max
  have here : offset < al.view.elems := by rwa [holds.list.elems]
  simp only [Merkle.mtAlUpdate, Exec.assert_of below, Exec.ok_bind, if_pos here,
    Exec.bind_eq_ok] at ran
  obtain ⟨store, copied, done⟩ := ran
  obtain ⟨heap, written, shown, same⟩ := write_of_copyIn copied
  have view : AlHeap.view { al with heap } = v := by
    cases done
    rw [AlHeap.view, shown]
    rfl
  have nonempty : xs.set offset hash ≠ [] :=
    List.ne_nil_of_length_pos (by rw [List.length_set]; exact Nat.zero_lt_of_lt lt)
  have holds' : AlHeap.Holds { al with heap } (xs.set offset hash) :=
    of_nonempty (view ▸ list) (holds.owned.write written) nonempty
  refine ⟨{ al with heap }, ?_, holds', holds'.not_dangling nonempty, same⟩
  have inRange : offset < al.elems := here
  simp only [mtAlUpdate, Exec.assert_of holds.below_max, Exec.ok_bind, if_pos inRange, written]
  rfl

/-- Shortening releases or resizes the store. -/
theorem truncate (holds : al.Holds xs) (alloc : Alloc) {elems : Nat} (shorter : elems < xs.length) :
    ∃ r al', mtAlTruncate al elems alloc = .ok (r, al') ∧ al'.Holds (xs.take elems) ∧
      (r = .success ∨ r = .outOfMemory ∧ alloc = none) ∧ (al'.Dangling ↔ elems = 0) ∧
      Asked al.heap al'.heap elems := by
  obtain ⟨r, v, ran, list, code, freed⟩ := holds.list.truncate alloc shorter
  have nonempty : xs ≠ [] := List.ne_nil_of_length_pos (Nat.zero_lt_of_lt shorter)
  obtain ⟨block, -, target, -⟩ := holds.list.block nonempty
  have below : al.view.elems < mtAlMaxElems := holds.below_max
  have here' : elems < al.view.elems := by rwa [holds.list.elems]
  have here : elems < al.elems := here'
  simp only [Merkle.mtAlTruncate, Exec.assert_of below, Exec.ok_bind, if_pos here', target] at ran
  simp only [mtAlTruncate, Exec.assert_of holds.below_max, Exec.ok_bind, if_pos here]
  by_cases zero : elems = 0
  · obtain ⟨i, pointer, live⟩ := live_of_storeAt target
    let heap := al.heap.setBlock i none
    have dead : heap.live? i = none := Heap.live?_setBlock_self (Heap.lt_of_live? live)
    have view : AlHeap.view { al with elems, heap } = v := by
      rw [if_pos zero] at ran
      cases ran
      rw [AlHeap.view, pointer, storeAt_released dead]
    have released : heap.Released := (pointer ▸ holds.owned).setBlock_none
    refine ⟨r, { al with elems, heap }, ?_, ⟨view ▸ list, released.owned _, fun _ => released⟩,
      code, ?_, ⟨[], rfl, List.forall_mem_nil _⟩⟩
    · rw [if_pos zero] at ran ⊢
      cases ran
      rw [pointer]
      simp [Heap.free, live]
      rfl
    · rw [Dangling, view]
      exact ⟨fun _ => zero, freed⟩
  · rw [if_neg zero] at ran ⊢
    have kept : (xs.take elems).length = elems := List.length_take_of_le (Nat.le_of_lt shorter)
    have some_ : xs.take elems ≠ [] := List.ne_nil_of_length_pos (by omega)
    have enough : elems * hashLength ≤ u32 (roundNextPowerTwo elems * hashLength) := by
      have fits := holds.list.fits
      obtain ⟨k, rounded, atLeast, small⟩ :=
        roundNextPowerTwo_spec (Nat.pos_of_ne_zero zero) (by omega : elems ≤ 2 ^ 31)
      rw [rounded, u32_of_lt (by simp only [hashLength]; omega)]
      exact Nat.mul_le_mul_right _ atLeast
    have whole {al' : AlHeap} (view : al'.view = v) (owned : al'.heap.Owned al'.store)
        (more : al'.heap.requests =
          u32 (roundNextPowerTwo elems * hashLength) :: al.heap.requests) :
        al'.Holds (xs.take elems) ∧ (r = .success ∨ r = .outOfMemory ∧ alloc = none) ∧
          (al'.Dangling ↔ elems = 0) ∧ Asked al.heap al'.heap elems := by
      have holds' := of_nonempty (view ▸ list) owned some_
      exact ⟨holds', code, iff_of_false (holds'.not_dangling some_) zero,
        [_], more, List.forall_mem_singleton.mpr enough⟩
    rcases realloc_of_live target (u32 (roundNextPowerTwo elems * hashLength)) alloc with
      ⟨heap, moved, more, moved'⟩ | ⟨i, heap, block', moved, more, shown, moved'⟩
    · rw [moved'] at ran
      rw [moved]
      cases ran
      exact ⟨_, _, rfl, whole rfl ((holds.owned.realloc moved).1 rfl) more⟩
    · rw [moved'] at ran
      rw [moved]
      cases ran
      exact ⟨_, _, rfl, whole (by rw [AlHeap.view, shown])
        ((holds.owned.realloc moved).2 (by rintro ⟨⟩)) more⟩

theorem get (holds : al.Holds xs) (offset : Nat) : mtAlGet al offset = .ok xs[offset]? := by
  have found := holds.list.get offset
  have below : al.view.elems < mtAlMaxElems := holds.below_max
  simp only [Merkle.mtAlGet, Exec.assert_of below, Exec.ok_bind] at found
  simp only [mtAlGet, Exec.assert_of holds.below_max, Exec.ok_bind]
  rw [← found]
  by_cases inRange : offset < al.elems
  · have inRange' : offset < al.view.elems := inRange
    have nonempty : xs ≠ [] := by
      rintro rfl
      rw [holds.elems] at inRange
      cases inRange
    obtain ⟨block, -, target, -⟩ := holds.list.block nonempty
    obtain ⟨i, pointer, live⟩ := live_of_storeAt target
    rw [if_pos inRange, if_pos inRange', target, pointer]
    simp only [Heap.read, live, Exec.access_some, Exec.ok_bind, Store.copyOut]
  · have inRange' : ¬ offset < al.view.elems := inRange
    rw [if_neg inRange, if_neg inRange']

end AlHeap.Holds

end Kvsev.Merkle.OnHeap
