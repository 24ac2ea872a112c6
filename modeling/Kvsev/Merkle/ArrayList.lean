import Kvsev.Merkle.Config

/-!
# The digest array list

A level of the tree is a growing array of digests (`mt_array_list.c`). The list
has no capacity field. Its block grows whenever the element count is a power of
two, so the capacity is implied by the count, and the sizes and indices are
32-bit products. `MtAl.Holds` is the relation to the list of digests a reader
has in mind; every operation has one lemma over it.

An allocation either fails or returns memory with arbitrary contents. Each
operation makes at most one allocation call, and its outcome is an argument.
-/

namespace Kvsev.Merkle

open Memory

/-- The outcome of one allocation call: failure, or fresh memory with some
indeterminate contents. -/
abbrev Alloc := Option (Nat → UInt8)

/-- What the `store` pointer of a list may point at. -/
inductive Store where
  | null
  | live (block : Block UInt8)
  /-- The pointer was passed to `free` and kept. -/
  | freed

namespace Store

/-- `memcpy(&store[off], hash, HASH_LENGTH)` -/
def copyIn (s : Store) (off : Nat) (hash : Digest) : Exec Store :=
  match s with
  | live block => do
    let block ← Exec.access (block.write? off hash)
    return live block
  | null | freed => throw .invalidAccess

/-- The digest a pointer to `&store[off]` refers to. -/
def copyOut (s : Store) (off : Nat) : Exec Digest :=
  match s with
  | live block => Exec.access (block.read? off hashLength)
  | null | freed => throw .invalidAccess

end Store

def malloc (size : Nat) (alloc : Alloc) : Option (Block UInt8) :=
  alloc.map fun fresh => ⟨size, fresh⟩

/-- `realloc`, with the returned pointer first and then what the old pointer
refers to. A request for zero bytes releases the block and returns `NULL`; a
request that fails leaves it alone. -/
def realloc (old : Store) (size : Nat) (alloc : Alloc) :
    Exec (Option (Block UInt8) × Store) :=
  match old with
  | .null => return (malloc size alloc, .null)
  | .freed => throw .invalidAccess
  | .live block =>
    if size = 0 then return (none, .freed)
    else match alloc with
      | none => return (none, .live block)
      | some fresh => return (some (block.resize size fresh), .freed)

/-- `free`; the pointer keeps its value. -/
def free : Store → Exec Store
  | .null => return .null
  | .live _ => return .freed
  | .freed => throw .invalidAccess

/-- `mt_al_t` -/
structure MtAl where
  elems : Nat
  store : Store

/-- `is_power_of_two` -/
def isPowerOfTwo (v : Nat) : Bool := v ≠ 0 ∧ v &&& (v - 1) = 0

/-- `v |= v >> k` -/
def smear (v k : Nat) : Nat := v ||| v >>> k

/-- `round_next_power_two` -/
def roundNextPowerTwo (v : Nat) : Nat :=
  let v := u32Pred v
  let v := smear v 1
  let v := smear v 2
  let v := smear v 4
  let v := smear v 8
  let v := smear v 16
  let v := u32 (v + 1)
  u32 (v + if v = 0 then 1 else 0)

/-- `mt_al_create`; `calloc` returned zeroed memory. -/
def mtAlCreate : MtAl := { elems := 0, store := .null }

/-- `mt_al_get_size` -/
def mtAlGetSize (al : MtAl) : Nat := al.elems

/-- The last statements of `mt_al_add`: copy behind the last element, count it. -/
def mtAlAppend (al : MtAl) (hash : Digest) : Exec (MtError × MtAl) := do
  let store ← al.store.copyIn (u32 (al.elems * hashLength)) hash
  return (.success, { elems := u32 (al.elems + 1), store })

/-- `mt_al_add` -/
def mtAlAdd (al : MtAl) (hash : Option Digest) (alloc : Alloc) : Exec (MtError × MtAl) := do
  Exec.assert (al.elems < mtAlMaxElems)
  match hash with
  | none => return (.illegalParam, al)
  | some hash =>
    if al.elems = 0 then
      match malloc hashLength alloc with
      | none => return (.outOfMemory, { al with store := .null })
      | some block => mtAlAppend { al with store := .live block } hash
    else if isPowerOfTwo al.elems then
      if u32 (al.elems <<< 1) < al.elems ∨ mtAlMaxElems < u32 (al.elems <<< 1) then
        return (.illegalState, al)
      else
        -- the product is 32 bits wide before it becomes a size_t
        let (tmp, old) ← realloc al.store (u32 (al.elems * 2 * hashLength)) alloc
        match tmp with
        | none => return (.outOfMemory, { al with store := old })
        | some block => mtAlAppend { al with store := .live block } hash
    else mtAlAppend al hash

/-- `mt_al_update` -/
def mtAlUpdate (al : MtAl) (hash : Option Digest) (offset : Nat) : Exec (MtError × MtAl) := do
  Exec.assert (al.elems < mtAlMaxElems)
  match hash with
  | none => return (.illegalParam, al)
  | some hash =>
    if offset < al.elems then
      let store ← al.store.copyIn (u32 (offset * hashLength)) hash
      return (.success, { al with store })
    else return (.illegalParam, al)

/-- `mt_al_update_if_exists` -/
def mtAlUpdateIfExists (al : MtAl) (hash : Option Digest) (offset : Nat) :
    Exec (MtError × MtAl) := do
  Exec.assert (al.elems < mtAlMaxElems)
  match hash with
  | none => return (.illegalParam, al)
  | some hash =>
    if al.elems ≤ offset then return (.success, al)
    else
      let store ← al.store.copyIn (u32 (offset * hashLength)) hash
      return (.success, { al with store })

/-- `mt_al_add_or_update` -/
def mtAlAddOrUpdate (al : MtAl) (hash : Option Digest) (offset : Nat) (alloc : Alloc) :
    Exec (MtError × MtAl) := do
  Exec.assert (al.elems < mtAlMaxElems)
  if hash.isNone ∨ al.elems < offset then return (.illegalParam, al)
  else if offset = al.elems then mtAlAdd al hash alloc
  else mtAlUpdate al hash offset

/-- `mt_al_truncate`. The count is lowered first, also when the call then fails. -/
def mtAlTruncate (al : MtAl) (elems : Nat) (alloc : Alloc) : Exec (MtError × MtAl) := do
  Exec.assert (al.elems < mtAlMaxElems)
  if elems < al.elems then
    if elems = 0 then
      let store ← free al.store
      return (.success, { elems, store })
    else
      let (tmp, old) ← realloc al.store (u32 (roundNextPowerTwo elems * hashLength)) alloc
      match tmp with
      | none => return (.outOfMemory, { elems, store := old })
      | some block => return (.success, { elems, store := .live block })
  else return (.illegalParam, al)

/-- `mt_al_get`; the digest stands for the pointer to it. -/
def mtAlGet (al : MtAl) (offset : Nat) : Exec (Option Digest) := do
  Exec.assert (al.elems < mtAlMaxElems)
  if offset < al.elems then
    let hash ← al.store.copyOut (u32 (offset * hashLength))
    return some hash
  else return none

/-! ## The list a store holds -/

/-- The block contains the digests of `xs` side by side from its start. -/
def StoresAt (block : Block UInt8) (xs : List Digest) : Prop :=
  ∀ i (h : i < xs.length), block.read? (i * hashLength) hashLength = some xs[i]

/-- The list `xs` is what the array list holds. The block has a power of two of
slots; the bound on the length keeps every 32-bit product exact. -/
structure MtAl.Holds (al : MtAl) (xs : List Digest) : Prop where
  elems : al.elems = xs.length
  fits : xs.length ≤ 2 ^ 26
  block : xs ≠ [] → ∃ block c, al.store = .live block ∧
    block.size = 2 ^ c * hashLength ∧ xs.length ≤ 2 ^ c ∧ StoresAt block xs

theorem mtAlCreate_holds : mtAlCreate.Holds [] :=
  ⟨rfl, by simp, fun h => absurd rfl h⟩

theorem isPowerOfTwo_iff {v : Nat} : isPowerOfTwo v = true ↔ v.isPowerOfTwo := by
  simpa [isPowerOfTwo] using Nat.ne_zero_and_sub_one_eq_zero_iff_isPowerOfTwo (n := v)

/-- Bit `i` of `w` is set when one of the `n` bits of `v` from `i` on is. -/
def Spread (n v w : Nat) : Prop := ∀ i, w.testBit i = true ↔ ∃ j < n, v.testBit (i + j) = true

theorem Spread.smear {n v w : Nat} (spread : Spread n v w) : Spread (n + n) v (smear w n) := by
  intro i
  rw [Merkle.smear, Nat.testBit_or, Bool.or_eq_true, Nat.testBit_shiftRight, spread i,
    spread (n + i)]
  constructor
  · rintro (⟨j, lt, set⟩ | ⟨j, lt, set⟩)
    · exact ⟨j, by omega, set⟩
    · exact ⟨n + j, by omega, by rwa [show i + (n + j) = n + i + j by omega]⟩
  · rintro ⟨j, lt, set⟩
    by_cases low : j < n
    · exact .inl ⟨j, low, set⟩
    · exact .inr ⟨j - n, by omega, by rwa [show n + i + (j - n) = i + j by omega]⟩

theorem Spread.eq_of_lt {v w : Nat} (spread : Spread 32 v w) (pos : 0 < v) (small : v < 2 ^ 32) :
    w = 2 ^ (v.log2 + 1) - 1 := by
  refine Nat.eq_of_testBit_eq fun i => ?_
  rw [Nat.testBit_two_pow_sub_one, Bool.eq_iff_iff, spread i, decide_eq_true_iff]
  have top : v.log2 < 32 := (Nat.log2_lt (by omega)).mpr small
  constructor
  · rintro ⟨j, -, set⟩
    by_contra high
    have beyond : v < 2 ^ (i + j) := (Nat.log2_lt (by omega)).mp (by omega)
    rw [Nat.testBit_lt_two_pow beyond] at set
    cases set
  · intro low
    refine ⟨v.log2 - i, by omega, ?_⟩
    rw [show i + (v.log2 - i) = v.log2 by omega]
    exact Nat.testBit_log2 (by omega)

/-- The smallest power of two that is not below `v`. -/
theorem roundNextPowerTwo_spec {v : Nat} (pos : 0 < v) (small : v ≤ 2 ^ 31) :
    ∃ c, roundNextPowerTwo v = 2 ^ c ∧ v ≤ 2 ^ c ∧ 2 ^ c < 2 * v := by
  obtain ⟨p, rfl⟩ : ∃ p, v = p + 1 := ⟨v - 1, by omega⟩
  have pred : u32Pred (p + 1) = p := u32Pred_succ (by omega)
  simp only [roundNextPowerTwo, pred]
  by_cases zero : p = 0
  · subst zero
    exact ⟨0, by decide⟩
  have start : Spread 1 p p := by
    intro i
    constructor
    · exact fun set => ⟨0, Nat.one_pos, set⟩
    · rintro ⟨j, lt, set⟩
      rwa [show j = 0 by omega] at set
  have all := start.smear.smear.smear.smear.smear.eq_of_lt (Nat.pos_of_ne_zero zero) (by omega)
  have low : 2 ^ p.log2 ≤ p := Nat.log2_self_le zero
  have high : p < 2 ^ (p.log2 + 1) := Nat.lt_log2_self
  have next : 2 ^ (p.log2 + 1) - 1 + 1 = 2 ^ (p.log2 + 1) :=
    Nat.sub_add_cancel Nat.one_le_two_pow
  have word : u32 (2 ^ (p.log2 + 1)) = 2 ^ (p.log2 + 1) :=
    u32_of_lt (by rw [Nat.pow_succ]; omega)
  have nonzero : 2 ^ (p.log2 + 1) ≠ 0 := Nat.ne_of_gt (Nat.two_pow_pos _)
  refine ⟨p.log2 + 1, ?_, by omega, by rw [Nat.pow_succ]; omega⟩
  rw [all, next, word, if_neg nonzero, Nat.add_zero, word]

variable {xs : List Digest}

/-- Writing one slot replaces that digest, or adds it behind the last one. -/
private theorem storesAt_write {block block' : Block UInt8} {hash : Digest} {i : Nat}
    (stores : StoresAt block xs) (written : block.write? (i * hashLength) hash = some block') :
    StoresAt block' (xs.set i hash) ∧
      (i = xs.length → StoresAt block' (xs ++ [hash])) := by
  have other : ∀ j, j ≠ i → block'.read? (j * hashLength) hashLength =
      block.read? (j * hashLength) hashLength := by
    intro j hj
    exact Block.read?_write?_disjoint written (by simp only [hashLength]; omega)
  constructor
  · intro j hj
    rw [List.getElem_set]
    split
    · subst j
      exact Block.read?_write?_self written
    · rename_i hne
      rw [other j (Ne.symm hne)]
      exact stores j (by simpa using hj)
  · rintro rfl j hj
    rw [List.getElem_append]
    split
    · rename_i hlt
      rw [other j (Nat.ne_of_lt hlt)]
      exact stores j hlt
    · have hlast : j = xs.length := by
        simp only [List.length_append, List.length_singleton] at hj
        omega
      subst j
      simpa using Block.read?_write?_self written

/-- The common end of the three ways `mt_al_add` finds room. -/
private theorem mtAlAppend_holds (al : MtAl) (xs : List Digest) (block : Block UInt8) (c : Nat)
    (hash : Digest) (elems : al.elems = xs.length) (live : al.store = .live block)
    (size : block.size = 2 ^ c * hashLength) (room : xs.length < 2 ^ c)
    (stores : StoresAt block xs) (fits : xs.length < 2 ^ 26) :
    ∃ al', mtAlAppend al hash = .ok (.success, al') ∧ al'.Holds (xs ++ [hash]) := by
  have inside : xs.length * hashLength + hashLength ≤ block.size := by
    rw [size, ← Nat.succ_mul]
    exact Nat.mul_le_mul_right _ room
  obtain ⟨block', written, size'⟩ := Block.write?_of_le hash inside
  refine ⟨{ elems := xs.length + 1, store := .live block' }, ?_, ?_⟩
  · have index : u32 (xs.length * hashLength) = xs.length * hashLength :=
      u32_of_lt (by simp only [hashLength]; omega)
    have count : u32 (xs.length + 1) = xs.length + 1 := u32_of_lt (by omega)
    simp [mtAlAppend, elems, live, Store.copyIn, index, count, written]
  · refine ⟨by simp, by simpa using Nat.le_of_lt_succ (Nat.succ_lt_succ fits), fun _ =>
      ⟨block', c, rfl, size'.trans size, ?_, ?_⟩⟩
    · simpa using Nat.succ_le_of_lt room
    · exact (storesAt_write stores written).2 rfl

private theorem room_of_not_isPowerOfTwo {n c : Nat} (le : n ≤ 2 ^ c)
    (not : ¬ isPowerOfTwo n = true) : n < 2 ^ c := by
  refine Nat.lt_of_le_of_ne le fun heq => not ?_
  exact isPowerOfTwo_iff.mpr ⟨c, heq⟩

variable {al : MtAl}

/-- Below `2^26` elements the size of a doubled block is exact. -/
private theorem doubled {n : Nat} (fits : n < 2 ^ 26) :
    ¬ (u32 (n <<< 1) < n ∨ mtAlMaxElems < u32 (n <<< 1)) ∧
      u32 (n * 2 * hashLength) = n * 2 * hashLength := by
  have double : u32 (n <<< 1) = 2 * n := by
    rw [Nat.shiftLeft_eq, u32_of_lt (by omega)]
    omega
  refine ⟨?_, u32_of_lt (by simp only [hashLength]; omega)⟩
  simp only [double, mtAlMaxElems]
  omega

private theorem mtAlAdd_some (hash : Digest) (fresh : Nat → UInt8) (holds : al.Holds xs)
    (fits : xs.length < 2 ^ 26) :
    ∃ al', mtAlAdd al (some hash) (some fresh) = .ok (.success, al') ∧
      al'.Holds (xs ++ [hash]) := by
  have below : xs.length < mtAlMaxElems := by simp only [mtAlMaxElems]; omega
  have elems := holds.elems
  by_cases empty : xs = []
  · subst empty
    have zero : al.elems = 0 := elems
    obtain ⟨al', run, holds'⟩ := mtAlAppend_holds
      { al with store := .live ⟨hashLength, fresh⟩ } [] ⟨hashLength, fresh⟩ 0 hash
      elems rfl (by simp) (by simp) (by intro i h; simp at h) (by simp)
    exact ⟨al', by simpa [mtAlAdd, Exec.assert, zero, malloc] using run, holds'⟩
  obtain ⟨block, c, live, size, le, stores⟩ := holds.block empty
  have nonzero : xs.length ≠ 0 := by simpa using empty
  by_cases full : isPowerOfTwo xs.length = true
  · obtain ⟨k, hk⟩ := isPowerOfTwo_iff.mp full
    obtain ⟨noWrap, bytes⟩ := doubled fits
    have bytes : u32 (xs.length * 2 * hashLength) = 2 ^ (k + 1) * hashLength := by
      rw [bytes, hk, Nat.pow_succ]
    have someBytes : 2 ^ (k + 1) * hashLength ≠ 0 :=
      Nat.mul_ne_zero (Nat.ne_of_gt (Nat.two_pow_pos _)) (by decide)
    let grown := block.resize (2 ^ (k + 1) * hashLength) fresh
    have kept : StoresAt grown xs := by
      intro i hi
      rw [Block.read?_resize _ _]
      · exact stores i hi
      · rw [size, ← Nat.succ_mul]
        exact Nat.mul_le_mul_right _ (Nat.lt_of_lt_of_le hi le)
      · rw [← Nat.succ_mul]
        refine Nat.mul_le_mul_right _ ?_
        rw [Nat.pow_succ]
        omega
    obtain ⟨al', run, holds'⟩ := mtAlAppend_holds
      { al with store := .live grown } xs grown (k + 1) hash elems rfl rfl
      (by rw [Nat.pow_succ]; omega) kept fits
    refine ⟨al', ?_, holds'⟩
    simp only [mtAlAdd, elems, Exec.assert_of below, Exec.ok_bind, if_neg nonzero, full,
      if_true, if_neg noWrap, live, bytes, realloc, if_neg someBytes, Exec.pure_eq_ok]
    rw [← elems]
    exact run
  · obtain ⟨al', run, holds'⟩ := mtAlAppend_holds al xs block c hash elems live size
      (room_of_not_isPowerOfTwo le full) stores fits
    exact ⟨al', by simpa [mtAlAdd, elems, Exec.assert_of below, nonzero, full] using run, holds'⟩

/-- `mt_al_add` allocates when it finds that many elements. -/
def needsBlock (elems : Nat) : Bool := elems = 0 ∨ isPowerOfTwo elems

/-- Where no allocation is made, its outcome does not matter. -/
theorem mtAlAdd_of_not_needsBlock (room : needsBlock al.elems = false)
    (hash : Option Digest) (alloc alloc' : Alloc) :
    mtAlAdd al hash alloc = mtAlAdd al hash alloc' := by
  have nonzero : al.elems ≠ 0 := by
    intro zero
    simp [needsBlock, zero] at room
  have notFull : isPowerOfTwo al.elems = false := by
    simpa [needsBlock, nonzero] using room
  simp only [mtAlAdd, if_neg nonzero, notFull]
  rfl

/-- A failed allocation leaves the list alone, but for the pointer of an empty one. -/
theorem mtAlAdd_outOfMemory (hash : Digest) (holds : al.Holds xs)
    (fits : xs.length < 2 ^ 26) (needed : needsBlock xs.length = true) :
    mtAlAdd al (some hash) none =
      .ok (.outOfMemory, if xs = [] then { al with store := .null } else al) := by
  have below : al.elems < mtAlMaxElems := by
    rw [holds.elems]
    simp only [mtAlMaxElems]
    omega
  by_cases empty : xs = []
  · have zero : al.elems = 0 := by rw [holds.elems, empty]; rfl
    simp [mtAlAdd, Exec.assert, zero, malloc, empty]
  obtain ⟨block, c, live, _⟩ := holds.block empty
  have nonzero : al.elems ≠ 0 := by rw [holds.elems]; simpa using empty
  have full : isPowerOfTwo al.elems = true := by
    rw [← holds.elems] at needed
    simpa [needsBlock, nonzero] using needed
  obtain ⟨noWrap, bytes⟩ := doubled (holds.elems ▸ fits)
  have bytes : u32 (al.elems * 2 * hashLength) ≠ 0 := by
    rw [bytes, hashLength]
    omega
  simp only [mtAlAdd, Exec.assert_of below, Exec.ok_bind, if_neg nonzero, full, if_true,
    if_neg noWrap, live, realloc, if_neg bytes, Exec.pure_eq_ok, if_neg empty]
  rw [← live]

/-- With `2^26` elements the size of the new block is zero as a 32-bit product.
`realloc` then releases the block, which the list keeps pointing at. -/
theorem mtAlAdd_full (hash : Digest) (alloc : Alloc)
    (holds : al.Holds xs) (full : xs.length = 2 ^ 26) :
    mtAlAdd al (some hash) alloc = .ok (.outOfMemory, { al with store := .freed }) := by
  have nonempty : xs ≠ [] := by
    rintro rfl
    simp at full
  obtain ⟨block, c, live, _⟩ := holds.block nonempty
  have elems : al.elems = 67108864 := holds.elems.trans full
  have power : isPowerOfTwo 67108864 = true := isPowerOfTwo_iff.mpr ⟨26, rfl⟩
  have double : u32 134217728 = 134217728 := rfl
  have bytes : u32 (67108864 * 2 * hashLength) = 0 := rfl
  simp [mtAlAdd, Exec.assert, mtAlMaxElems, elems, power, double, bytes, live, realloc]

/-- Whether `mt_al_add` succeeds depends on the one allocation it may make. -/
theorem mtAlAdd_outcome (hash : Digest) (alloc : Alloc)
    (holds : al.Holds xs) (fits : xs.length < 2 ^ 26) :
    (needsBlock xs.length = true ∧ alloc = none ∧ mtAlAdd al (some hash) alloc =
        .ok (.outOfMemory, if xs = [] then { al with store := .null } else al)) ∨
      ¬ (needsBlock xs.length = true ∧ alloc = none) ∧
        ∃ al', mtAlAdd al (some hash) alloc = .ok (.success, al') ∧ al'.Holds (xs ++ [hash]) := by
  by_cases failed : needsBlock xs.length = true ∧ alloc = none
  · obtain ⟨needed, rfl⟩ := failed
    exact .inl ⟨needed, rfl, mtAlAdd_outOfMemory hash holds fits needed⟩
  refine .inr ⟨failed, ?_⟩
  have lucky : ∃ fresh, mtAlAdd al (some hash) alloc = mtAlAdd al (some hash) (some fresh) := by
    cases alloc with
    | some fresh => exact ⟨fresh, rfl⟩
    | none =>
      have room : needsBlock al.elems = false := by
        rw [holds.elems]
        simpa using failed
      exact ⟨fun _ => 0, mtAlAdd_of_not_needsBlock room _ _ _⟩
  obtain ⟨fresh, same⟩ := lucky
  rw [same]
  exact mtAlAdd_some hash fresh holds fits

/-- Below `2^26` elements `mt_al_add` appends, or reports that its allocation
failed and leaves the list as it was. At exactly `2^26` the size it requests
would wrap to zero. -/
theorem mtAlAdd_spec (hash : Digest) (alloc : Alloc)
    (holds : al.Holds xs) (fits : xs.length < 2 ^ 26) :
    ∃ r al', mtAlAdd al (some hash) alloc = .ok (r, al') ∧
      (r = .success ∧ al'.Holds (xs ++ [hash]) ∨
        r = .outOfMemory ∧ alloc = none ∧ al'.Holds xs) := by
  obtain ⟨-, failed, run⟩ | ⟨-, al', run, holds'⟩ := mtAlAdd_outcome hash alloc holds fits
  · refine ⟨_, _, run, .inr ⟨rfl, failed, ?_⟩⟩
    split
    · next empty => exact ⟨holds.elems, holds.fits, fun some_ => absurd empty some_⟩
    · exact holds
  · exact ⟨_, al', run, .inl ⟨rfl, holds'⟩⟩

/-- Overwriting one slot of a held list. -/
private theorem copyIn_holds {offset : Nat} (hash : Digest)
    (holds : al.Holds xs) (exists_ : offset < xs.length) :
    ∃ store, al.store.copyIn (u32 (offset * hashLength)) hash = .ok store ∧
      MtAl.Holds { al with store } (xs.set offset hash) := by
  have nonempty : xs ≠ [] := List.ne_nil_of_length_pos (Nat.zero_lt_of_lt exists_)
  obtain ⟨block, c, live, size, le, stores⟩ := holds.block nonempty
  have fits := holds.fits
  have index : u32 (offset * hashLength) = offset * hashLength :=
    u32_of_lt (by simp only [hashLength]; omega)
  have inside : offset * hashLength + hashLength ≤ block.size := by
    rw [size, ← Nat.succ_mul]
    exact Nat.mul_le_mul_right _ (Nat.lt_of_lt_of_le exists_ le)
  obtain ⟨block', written, size'⟩ := Block.write?_of_le hash inside
  refine ⟨.live block', ?_, ?_⟩
  · simp [live, Store.copyIn, index, written]
  · refine ⟨by simpa using holds.elems, by simpa using fits, fun _ => ?_⟩
    exact ⟨block', c, rfl, size'.trans size, by simpa using le, (storesAt_write stores written).1⟩

namespace MtAl.Holds

variable {al : MtAl} {xs : List Digest}

section

variable (holds : al.Holds xs)

include holds

theorem below_max : xs.length < mtAlMaxElems := by
  have fits := holds.fits
  simp only [mtAlMaxElems]
  omega

theorem getSize : mtAlGetSize al = xs.length := holds.elems

/-- `mt_al_get` is lookup; past the end it returns `NULL`. -/
theorem get (offset : Nat) : mtAlGet al offset = .ok xs[offset]? := by
  simp only [mtAlGet]
  rw [holds.elems, Exec.assert_of holds.below_max, Exec.ok_bind]
  split
  · rename_i inRange
    have nonempty : xs ≠ [] := List.ne_nil_of_length_pos (Nat.zero_lt_of_lt inRange)
    obtain ⟨block, c, live, _, _, stores⟩ := holds.block nonempty
    have fits := holds.fits
    have index : u32 (offset * hashLength) = offset * hashLength :=
      u32_of_lt (by simp only [hashLength]; omega)
    simp [live, Store.copyOut, index, stores offset inRange, inRange]
  · rename_i outOfRange
    simp [List.getElem?_eq_none (Nat.le_of_not_lt outOfRange)]

theorem update (hash : Digest) {offset : Nat} (inRange : offset < xs.length) :
    ∃ al', mtAlUpdate al (some hash) offset = .ok (.success, al') ∧
      al'.Holds (xs.set offset hash) := by
  obtain ⟨store, copied, holds'⟩ := copyIn_holds hash holds inRange
  refine ⟨_, ?_, holds'⟩
  simp [mtAlUpdate, Exec.assert_of holds.below_max, holds.elems, inRange, copied]

/-- An index past the end changes nothing, which is also what `List.set` does. -/
theorem updateIfExists (hash : Digest) (offset : Nat) :
    ∃ al', mtAlUpdateIfExists al (some hash) offset = .ok (.success, al') ∧
      al'.Holds (xs.set offset hash) := by
  by_cases inRange : offset < xs.length
  · obtain ⟨store, copied, holds'⟩ := copyIn_holds hash holds inRange
    refine ⟨_, ?_, holds'⟩
    have notPast : ¬ xs.length ≤ offset := Nat.not_le_of_lt inRange
    simp [mtAlUpdateIfExists, Exec.assert_of holds.below_max, holds.elems, notPast, copied]
  · have past := Nat.le_of_not_lt inRange
    refine ⟨al, ?_, ?_⟩
    · simp [mtAlUpdateIfExists, Exec.assert_of holds.below_max, holds.elems, past]
    · rwa [List.set_eq_of_length_le past]

/-- At the end it appends, before the end it overwrites. Only an append can fail. -/
theorem addOrUpdate_outcome (hash : Digest) (alloc : Alloc) {offset : Nat}
    (inRange : offset ≤ xs.length) (fits : offset < 2 ^ 26) :
    (∃ al', offset = xs.length ∧ needsBlock offset = true ∧ alloc = none ∧
        mtAlAddOrUpdate al (some hash) offset alloc = .ok (.outOfMemory, al')) ∨
      ¬ (offset = xs.length ∧ needsBlock offset = true ∧ alloc = none) ∧
        ∃ al', mtAlAddOrUpdate al (some hash) offset alloc = .ok (.success, al') ∧
          al'.Holds (xs.take offset ++ hash :: xs.drop (offset + 1)) := by
  by_cases atEnd : offset = xs.length
  · have same : mtAlAddOrUpdate al (some hash) offset alloc = mtAlAdd al (some hash) alloc := by
      simp [mtAlAddOrUpdate, Exec.assert_of holds.below_max, holds.elems, atEnd]
    rw [same]
    rcases mtAlAdd_outcome hash alloc holds (atEnd ▸ fits) with
      ⟨needed, failed, run⟩ | ⟨lucky, al', run, holds'⟩
    · exact .inl ⟨_, atEnd, atEnd ▸ needed, failed, run⟩
    · refine .inr ⟨fun ⟨_, needed, failed⟩ => lucky ⟨atEnd ▸ needed, failed⟩, al', run, ?_⟩
      simpa [atEnd, List.drop_eq_nil_of_le (Nat.le_succ xs.length)] using holds'
  · refine .inr ⟨fun failed => atEnd failed.1, ?_⟩
    have before : offset < xs.length := Nat.lt_of_le_of_ne inRange atEnd
    have notPast : ¬ xs.length < offset := Nat.not_lt_of_le inRange
    obtain ⟨al', run, holds'⟩ := holds.update hash before
    refine ⟨al', ?_, ?_⟩
    · simpa [mtAlAddOrUpdate, Exec.assert_of holds.below_max, holds.elems, atEnd, notPast] using run
    · rwa [List.set_eq_take_append_cons_drop, if_pos before] at holds'

/-- A shorter list is held by the same block or by a smaller one, and the empty
list by a released one. -/
theorem truncate (alloc : Alloc) {elems : Nat} (shorter : elems < xs.length) :
    ∃ r al', mtAlTruncate al elems alloc = .ok (r, al') ∧ al'.Holds (xs.take elems) ∧
      (r = .success ∨ r = .outOfMemory ∧ alloc = none) ∧ (elems = 0 → al'.store = .freed) := by
  have nonempty : xs ≠ [] := List.ne_nil_of_length_pos (Nat.zero_lt_of_lt shorter)
  obtain ⟨block, c, live, size, le, stores⟩ := holds.block nonempty
  have fits := holds.fits
  have kept : (xs.take elems).length = elems := List.length_take_of_le (Nat.le_of_lt shorter)
  have taken : ∀ {b : Block UInt8}, (∀ i, i < elems → b.read? (i * hashLength) hashLength =
      block.read? (i * hashLength) hashLength) → StoresAt b (xs.take elems) := by
    intro b same i lt
    rw [kept] at lt
    rw [same i lt, List.getElem_take]
    exact stores i (Nat.lt_trans lt shorter)
  by_cases zero : elems = 0
  · subst zero
    refine ⟨.success, ⟨0, .freed⟩, ?_, ⟨rfl, by simp, fun h => absurd rfl h⟩, .inl rfl,
      fun _ => rfl⟩
    simp [mtAlTruncate, holds.elems, Exec.assert_of holds.below_max, shorter, live, free]
  obtain ⟨k, rounded, atLeast, below⟩ :=
    roundNextPowerTwo_spec (Nat.pos_of_ne_zero zero) (by omega : elems ≤ 2 ^ 31)
  have bytes : u32 (roundNextPowerTwo elems * hashLength) = 2 ^ k * hashLength := by
    rw [rounded]
    exact u32_of_lt (by simp only [hashLength]; omega)
  have someBytes : 2 ^ k * hashLength ≠ 0 :=
    Nat.mul_ne_zero (Nat.ne_of_gt (Nat.two_pow_pos _)) (by decide)
  have within : ∀ {n}, elems ≤ n → ∀ i, i < elems →
      i * hashLength + hashLength ≤ n * hashLength := by
    intro n le i lt
    rw [← Nat.succ_mul]
    exact Nat.mul_le_mul_right _ (by omega)
  cases alloc with
  | none =>
    refine ⟨.outOfMemory, ⟨elems, .live block⟩, ?_, ⟨kept.symm, by omega, fun _ =>
      ⟨block, c, rfl, size, by omega, taken fun _ _ => rfl⟩⟩, .inr ⟨rfl, rfl⟩,
      fun h => absurd h zero⟩
    simp [mtAlTruncate, holds.elems, Exec.assert_of holds.below_max, shorter, zero, bytes,
      live, realloc]
  | some fresh =>
    refine ⟨.success, ⟨elems, .live (block.resize (2 ^ k * hashLength) fresh)⟩, ?_,
      ⟨kept.symm, by omega, fun _ => ⟨_, k, rfl, rfl, by omega, taken fun i lt =>
        Block.read?_resize ?_ (within atLeast i lt)⟩⟩, .inl rfl, fun h => absurd h zero⟩
    · simp [mtAlTruncate, holds.elems, Exec.assert_of holds.below_max, shorter, zero, bytes,
        live, realloc]
    · rw [size]
      exact within (by omega) i lt

end

end MtAl.Holds

end Kvsev.Merkle
