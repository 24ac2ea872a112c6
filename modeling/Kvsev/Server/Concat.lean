import Kvsev.Server.Layout

/-!
# Append and prepend, byte by byte

`do_store_item` allocates an item for both values and copies them into it with
`_store_item_copy_data`. The old, the uploaded and the new item may each be one
slab chunk or a chain of chunks, which depends on the sizes of key, flags and
value. The copy into a plain item takes it for granted that its sources are plain.

An old item that is a chain makes the new one a chain. This does not hold for the
uploaded item: it may have client flags where the old item has none, and then its
four bytes of flags can make it a chain although the new item is not.
-/

namespace Kvsev.Server.Concat

open Memory

/-- `_store_item_copy_chunks`, for a destination with these chunks. -/
def storeItemCopyChunks (slabs : Slabs) (chunks : List DataChunk) (s : Stored) (len : Nat)
    (pull : Pull) : Exec (Option (List DataChunk) × Pull) :=
  match chunks with
  | [] => throw .invalidAccess
  | dch :: rest => do
    let c := advance [] dch rest
    let (r, pull) ← match s.chunks with
      | some source => copyChunks slabs (len + source.length + 2) c source 0 len pull
      | none => copyData slabs (len + 2) c s.mem (s.itemData slabs) len pull
    return (r.map Cursor.chunks, pull)

/-- The two copies of `_store_item_copy_data`: so many bytes of `a`, and then all of `b`. -/
def copyBoth (slabs : Slabs) (new a b : Stored) (pull : Pull) : Exec (Option Stored × Pull) :=
  match new.chunks with
  | some chunks => do
    let (r, pull) ← storeItemCopyChunks slabs chunks a (a.nbytes - 2) pull
    match r with
    | none => return (none, pull)
    | some chunks =>
      let (r, pull) ← storeItemCopyChunks slabs chunks b b.nbytes pull
      return (r.map fun chunks => { new with chunks := some chunks }, pull)
  | none => do
    let data := new.itemData slabs
    let mem ← new.mem.memcpy data a.mem (a.itemData slabs) a.nbytes
    let mem ← mem.memcpy (data + a.nbytes - 2) b.mem (b.itemData slabs) b.nbytes
    return (some { new with mem }, pull)

/-- `_store_item_copy_data` -/
def storeItemCopyData (slabs : Slabs) (comm : Nread) (old new add : Stored) (pull : Pull) :
    Exec (Option Stored × Pull) :=
  if comm = .append then copyBoth slabs new old add pull else copyBoth slabs new add old pull

/-- The branch of `do_store_item` for append and prepend. The reply is `STORED` if there is
an item. -/
def storeConcat (slabs : Slabs) (comm : Nread) (old it : Stored) (pull : Pull) :
    Exec (Option Stored × Pull) :=
  match doItemAlloc slabs it.key old.flags old.exptime (it.nbytes + old.nbytes - 2) pull with
  | (none, pull) => return (none, pull)
  | (some new, pull) => storeItemCopyData slabs comm old new it pull

variable {slabs : Slabs} {c : Cursor} {xs ys v w : List UInt8} {it new a b old add : Stored}
  {chunks : List DataChunk} {pull pull' : Pull} {key : Key} {flags exptime nbytes len : Nat}

/-- A chain to copy into: its chunks are full up to the last. -/
structure Filled (chunks : List DataChunk) (xs : List UInt8) : Prop extends Chain chunks xs where
  some : chunks ≠ []
  full : ∀ ch ∈ chunks.dropLast, ch.used = ch.size

theorem length_crlf : crlf.length = 2 := rfl

theorem Cursor.Holds.filled (holds : c.Holds xs) : Filled c.chunks xs := by
  refine ⟨holds.toChain, by simp [Cursor.chunks], ?_⟩
  have front : c.chunks.dropLast = c.front := by simp [Cursor.chunks, holds.last]
  rw [front]
  exact holds.full

theorem advance_holds (front : List DataChunk) (dch : DataChunk) (rest : List DataChunk)
    (before : ∀ ch ∈ front, ch.used = ch.size)
    (full : ∀ ch ∈ (dch :: rest).dropLast, ch.used = ch.size) :
    (advance front dch rest).after = [] ∧
      (∀ ch ∈ (advance front dch rest).front, ch.used = ch.size) ∧
      (advance front dch rest).chunks = front ++ dch :: rest := by
  induction rest generalizing front dch with
  | nil => exact ⟨rfl, before, rfl⟩
  | cons next rest ih =>
    have here : dch.used = dch.size := full dch (by simp)
    rw [advance, if_pos here.symm]
    have before' : ∀ ch ∈ front ++ [dch], ch.used = ch.size := by
      intro ch mem
      obtain old | rfl := List.mem_append.mp mem |>.imp_right List.mem_singleton.mp
      · exact before ch old
      · exact here
    obtain ⟨last, full', chunks⟩ := ih (front ++ [dch]) next before' fun ch mem =>
      full ch (by simpa using .inr mem)
    exact ⟨last, full', by rw [chunks]; simp⟩

theorem Filled.advance {dch : DataChunk} {rest : List DataChunk}
    (filled : Filled (dch :: rest) xs) : (advance [] dch rest).Holds xs := by
  obtain ⟨last, full, chunks⟩ := advance_holds [] dch rest nofun filled.full
  rw [List.nil_append] at chunks
  exact ⟨⟨last, by rw [chunks]; exact filled.valid, by rw [chunks]; exact filled.bytes⟩, full⟩

/-- `_store_item_copy_chunks` copies the beginning of any source. -/
theorem storeItemCopyChunks_spec (sane : slabs.Sane) (filled : Filled chunks xs)
    (holds : it.Holds slabs ys) (short : len ≤ ys.length) (pull : Pull) :
    ∃ r pull', storeItemCopyChunks slabs chunks it len pull = .ok (r, pull') ∧
      ∀ chunks', r = some chunks' → Filled chunks' (xs ++ ys.take len) := by
  have body := holds.body
  cases chunks with
  | nil => exact absurd rfl filled.some
  | cons dch rest =>
    have cursor := filled.advance
    rw [storeItemCopyChunks]
    cases large : it.chunks with
    | some source =>
      simp only [large] at body
      obtain ⟨-, chain⟩ := body
      have long : 0 + len ≤ (bytes source).length := by rw [chain.bytes]; omega
      have enough : Enough (Concat.advance [] dch rest) len (len + source.length)
        (len + source.length + 2) := .inl (Nat.le_refl _)
      obtain ⟨r, pull', ran, done⟩ := copyChunks_spec sane cursor chain.valid
        (fun _ _ => Nat.zero_le _) long enough pull
      refine ⟨r.map Cursor.chunks, pull', by simp [ran], fun chunks' same => ?_⟩
      obtain ⟨c, rfl, rfl⟩ := Option.map_eq_some_iff.mp same
      have result := (done c rfl).filled
      rwa [List.drop_zero, chain.bytes] at result
    | none =>
      simp only [large] at body
      obtain ⟨-, inside, shown⟩ := body
      have enough : Enough (Concat.advance [] dch rest) len len (len + 2) :=
        .inl (Nat.le_refl _)
      obtain ⟨r, pull', ran, done⟩ := copyData_spec sane cursor
        (show it.itemData slabs + len ≤ it.mem.size by omega) enough pull
      refine ⟨r.map Cursor.chunks, pull', by simp [ran], fun chunks' same => ?_⟩
      obtain ⟨c, rfl, rfl⟩ := Option.map_eq_some_iff.mp same
      have result := (done c rfl).filled
      rwa [← Block.take_slice short, shown] at result

theorem take_crlf (v : List UInt8) : (v ++ crlf).take ((v ++ crlf).length - 2) = v := by
  simp [crlf]

theorem copyBoth_large (sane : slabs.Sane)
    (fresh : Fresh slabs key flags exptime (v ++ w ++ crlf).length new)
    (large : slabs.settings.slabChunkSizeMax < new.ntotal slabs) (first : a.Holds slabs (v ++ crlf))
    (second : b.Holds slabs (w ++ crlf)) (pull : Pull) :
    ∃ r pull', copyBoth slabs new a b pull = .ok (r, pull') ∧
      ∀ new', r = some new' → new'.Holds slabs (v ++ w ++ crlf) ∧ new'.key = key ∧
        new'.flags = flags ∧ new'.exptime = exptime := by
  have body := fresh.body
  cases chained : new.chunks with
  | none =>
    simp only [chained] at body
    omega
  | some chunks =>
    simp only [chained] at body
    obtain ⟨schunk, rfl⟩ := List.length_eq_one_iff.mp body.2.2
    have empty : Filled [schunk] [] := ⟨body.2.1, by simp, by simp⟩
    obtain ⟨r, pull', ran, done⟩ := storeItemCopyChunks_spec sane empty first
      (show a.nbytes - 2 ≤ _ by rw [first.nbytes]; omega) pull
    rw [copyBoth]
    simp only [chained, ran, Exec.ok_bind]
    cases r with
    | none => exact ⟨none, pull', rfl, nofun⟩
    | some chunks =>
      have old := done chunks rfl
      rw [first.nbytes, take_crlf, List.nil_append] at old
      obtain ⟨r, pull'', ran', done'⟩ := storeItemCopyChunks_spec sane old second
        (Nat.le_of_eq second.nbytes) pull'
      simp only [ran', Exec.ok_bind]
      refine ⟨_, pull'', rfl, fun new' same => ?_⟩
      obtain ⟨chunks', rfl, rfl⟩ := Option.map_eq_some_iff.mp same
      have all := done' chunks' rfl
      rw [second.nbytes, List.take_length, ← List.append_assoc] at all
      exact ⟨⟨fresh.nbytes, fresh.mem, large, all.toChain⟩, fresh.key, fresh.flags, fresh.exptime⟩

/-- Copying plain items into a plain one. -/
theorem copyBoth_small (fresh : Fresh slabs key flags exptime (v ++ w ++ crlf).length new)
    (small : new.ntotal slabs ≤ slabs.settings.slabChunkSizeMax) (first : a.Holds slabs (v ++ crlf))
    (firstSmall : a.ntotal slabs ≤ slabs.settings.slabChunkSizeMax)
    (second : b.Holds slabs (w ++ crlf))
    (secondSmall : b.ntotal slabs ≤ slabs.settings.slabChunkSizeMax) (pull : Pull) :
    ∃ new', copyBoth slabs new a b pull = .ok (some new', pull) ∧
      new'.Holds slabs (v ++ w ++ crlf) ∧ new'.key = key ∧ new'.flags = flags ∧
      new'.exptime = exptime := by
  have body := fresh.body
  have total := itemData_add_nbytes slabs new
  have nbytes := fresh.nbytes
  have firstBytes := first.nbytes
  have secondBytes := second.nbytes
  obtain ⟨firstInside, firstShown⟩ := first.flat firstSmall
  obtain ⟨secondInside, secondShown⟩ := second.flat secondSmall
  simp only [List.length_append, length_crlf] at nbytes firstBytes secondBytes
  simp only [List.length_append, length_crlf] at firstInside secondInside
  cases chained : new.chunks with
  | some chunks =>
    simp only [chained] at body
    omega
  | none =>
    simp only [chained] at body
    obtain ⟨-, room⟩ := body
    obtain ⟨mem, ran, copies⟩ := Block.memcpy_spec
      (show a.itemData slabs + a.nbytes ≤ a.mem.size by omega)
      (show new.itemData slabs + a.nbytes ≤ new.mem.size by omega)
    have size := copies.size
    -- the second copy overwrites the line end of the first
    have start : new.itemData slabs + a.nbytes - 2 = new.itemData slabs + v.length := by omega
    obtain ⟨mem', ran', copies'⟩ := Block.memcpy_spec
      (show b.itemData slabs + b.nbytes ≤ b.mem.size by omega)
      (show new.itemData slabs + v.length + b.nbytes ≤ mem.size by omega)
    have shown : mem'.slice (new.itemData slabs) (v ++ w ++ crlf).length = v ++ w ++ crlf := by
      have length : (v ++ w ++ crlf).length = v.length + b.nbytes := by
        simp only [List.length_append, length_crlf]
        omega
      have front : mem.slice (new.itemData slabs) v.length = v := by
        rw [← Block.take_slice (show v.length ≤ a.nbytes by omega), copies.shows, first.nbytes,
          firstShown, List.take_left]
      rw [length, copies'.slice_append, front, second.nbytes, secondShown, List.append_assoc]
    refine ⟨{ new with mem := mem' }, ?_, ⟨fresh.nbytes, ?_, ?_⟩, fresh.key, fresh.flags,
      fresh.exptime⟩
    · rw [copyBoth]
      simp [chained, ran, start, ran']
    · change mem'.size ≤ _
      rw [copies'.size, size]
      exact fresh.mem
    · have size' := copies'.size
      change match new.chunks with | some chunks => _ | none => _
      simp only [chained]
      refine ⟨small, ?_, shown⟩
      change new.itemData slabs + _ ≤ mem'.size
      simp only [List.length_append, length_crlf]
      omega

/-! ## Concatenation -/

/-- The value that append and prepend are to store. -/
def joined (comm : Nread) (v w : List UInt8) : List UInt8 :=
  if comm = .append then v ++ w else w ++ v

/-- The size of the item for both values. -/
def Stored.joinedTotal (slabs : Slabs) (old add : Stored) : Nat :=
  itemTotal slabs.settings add.key.length old.flags (add.nbytes + old.nbytes - 2)

theorem length_joined (comm : Nread) (oldHolds : old.Holds slabs (v ++ crlf))
    (addHolds : add.Holds slabs (w ++ crlf)) :
    add.nbytes + old.nbytes - 2 = (joined comm v w ++ crlf).length := by
  rw [oldHolds.nbytes, addHolds.nbytes, joined]
  split <;> simp only [List.length_append, length_crlf] <;> omega

/-- An old item that is a chain makes the new one a chain. -/
theorem ntotal_le_joinedTotal (slabs : Slabs) (same : old.key = add.key) (long : 2 ≤ add.nbytes) :
    old.ntotal slabs ≤ old.joinedTotal slabs add := by
  simp only [Stored.ntotal, Stored.joinedTotal, itemTotal, itemMakeHeader, same]
  omega

/-- The copy that `do_store_item` asks for is right if an uploaded chain goes into a chain. -/
theorem storeItemCopyData_spec (sane : slabs.Sane) (comm : Nread)
    (oldHolds : old.Holds slabs (v ++ crlf)) (addHolds : add.Holds slabs (w ++ crlf))
    (fresh : Fresh slabs key flags exptime (joined comm v w ++ crlf).length new)
    (oldSmall : new.ntotal slabs ≤ slabs.settings.slabChunkSizeMax →
      old.ntotal slabs ≤ slabs.settings.slabChunkSizeMax)
    (addSmall : new.ntotal slabs ≤ slabs.settings.slabChunkSizeMax →
      add.ntotal slabs ≤ slabs.settings.slabChunkSizeMax) (pull : Pull) :
    ∃ r pull', storeItemCopyData slabs comm old new add pull = .ok (r, pull') ∧
      ∀ new', r = some new' → new'.Holds slabs (joined comm v w ++ crlf) ∧ new'.key = key ∧
        new'.flags = flags ∧ new'.exptime = exptime := by
  rw [storeItemCopyData]
  simp only [joined] at fresh ⊢
  by_cases large : slabs.settings.slabChunkSizeMax < new.ntotal slabs
  · split at fresh
    · rename_i append
      rw [if_pos append]
      simpa only [if_pos append] using copyBoth_large sane fresh large oldHolds addHolds pull
    · rename_i prepend
      rw [if_neg prepend]
      simpa only [if_neg prepend] using copyBoth_large sane fresh large addHolds oldHolds pull
  · have small := Nat.le_of_not_lt large
    have oldSmall := oldSmall small
    have addSmall := addSmall small
    split at fresh
    · rename_i append
      obtain ⟨new', ran, done⟩ :=
        copyBoth_small fresh small oldHolds oldSmall addHolds addSmall pull
      simp only [if_pos append]
      exact ⟨some new', pull, ran, fun _ same => by cases same; exact done⟩
    · rename_i prepend
      obtain ⟨new', ran, done⟩ :=
        copyBoth_small fresh small addHolds addSmall oldHolds oldSmall pull
      simp only [if_neg prepend]
      exact ⟨some new', pull, ran, fun _ same => by cases same; exact done⟩

/-- The item as the model of the server has it. -/
def Stored.view (it : Stored) (xs : List UInt8) : Item :=
  { noItem with
    key := it.key, exptime := it.exptime, flags := it.flags
    chunked := it.chunks.isSome, data := xs }

theorem Stored.Holds.chunked_iff (holds : it.Holds slabs xs) :
    it.chunks.isSome ↔ slabs.settings.slabChunkSizeMax < it.ntotal slabs := by
  have body := holds.body
  cases chained : it.chunks with
  | some chunks | none => simpa [chained] using (by simpa only [chained] using body : _ ∧ _).1

section

variable (sane : slabs.Sane) (comm : Nread) (short : add.key.length ≤ 250)
  (same : old.key = add.key) (oldHolds : old.Holds slabs (v ++ crlf))
  (addHolds : add.Holds slabs (w ++ crlf))

include sane short same oldHolds addHolds

/-- An uploaded chain is not copied into a plain item: the copy runs over the end of the
slab chunk with the header. -/
theorem storeConcat_mixed (large : slabs.settings.slabChunkSizeMax < add.ntotal slabs)
    (small : old.joinedTotal slabs add ≤ slabs.settings.slabChunkSizeMax)
    (cell : Nat → UInt8) (pull : Pull) :
    storeConcat slabs comm old add (some cell :: pull) = .error .invalidAccess := by
  have addBytes := addHolds.nbytes
  have oldBytes := oldHolds.nbytes
  simp only [List.length_append, length_crlf] at addBytes oldBytes
  have items := sane.items
  let mem : Block UInt8 := ⟨slabSize slabs.sizes (old.joinedTotal slabs add), cell⟩
  let new : Stored :=
    ⟨add.key, old.flags, old.exptime, add.nbytes + old.nbytes - 2, mem, none⟩
  have allocated : doItemAlloc slabs add.key old.flags old.exptime (add.nbytes + old.nbytes - 2)
      (some cell :: pull) = (some new, pull) := by
    have positive : 0 < old.joinedTotal slabs add := by
      simp only [Stored.joinedTotal, itemTotal, itemMakeHeader, sizeofItem]
      omega
    have fits : slabsFits slabs.settings (old.joinedTotal slabs add) = true := by
      simp only [slabsFits, decide_eq_true_eq]
      omega
    have sizeOk : itemSizeOk slabs.settings add.key.length old.flags
        (add.nbytes + old.nbytes - 2) = true := by
      simp only [itemSizeOk, decide_eq_true_eq]
      exact ⟨by omega, fits⟩
    have plain : isLarge slabs.settings add.key.length old.flags
        (add.nbytes + old.nbytes - 2) = false := by
      simp only [isLarge, decide_eq_false_iff_not]
      exact Nat.not_lt.mpr small
    have pulled : doItemAllocPull slabs (old.joinedTotal slabs add) (some cell :: pull) =
        (some mem, pull) := by
      rw [doItemAllocPull, if_pos fits]
    simp only [doItemAlloc, sizeOk, plain, not_true_eq_false, Bool.false_eq_true, if_false]
    rw [Stored.joinedTotal] at pulled
    rw [pulled]
  have fresh := doItemAlloc_spec sane short allocated
  rw [storeConcat, allocated]
  simp only [storeItemCopyData]
  by_cases append : comm = .append
  · -- the old value is copied, the uploaded one is not
    rw [if_pos append, copyBoth]
    have oldSmall := Nat.le_trans (ntotal_le_joinedTotal slabs same (by omega)) small
    obtain ⟨inside, -⟩ := oldHolds.flat oldSmall
    have room : new.ntotal slabs ≤ mem.size := fresh.body.2
    have total := itemData_add_nbytes slabs new
    have bytes := fresh.nbytes
    simp only [List.length_append, length_crlf] at inside
    obtain ⟨mem', ran, -⟩ := Block.memcpy_spec
      (show old.itemData slabs + old.nbytes ≤ old.mem.size by omega)
      (show new.itemData slabs + old.nbytes ≤ mem.size by omega)
    have failed := addHolds.memcpy_large large mem' (new.itemData slabs + old.nbytes - 2)
    simp [new, ran, failed]
  · rw [if_neg append, copyBoth]
    have failed := addHolds.memcpy_large large mem (new.itemData slabs)
    simp [new, failed]

/-- What the branch for append and prepend stores if an uploaded chain goes into a chain. -/
theorem storeConcat_spec
    (chains : slabs.settings.slabChunkSizeMax < add.ntotal slabs →
      slabs.settings.slabChunkSizeMax < old.joinedTotal slabs add) (pull : Pull) :
    ∃ r pull', storeConcat slabs comm old add pull = .ok (r, pull') ∧
      ∀ new, r = some new → new.Holds slabs (joined comm v w ++ crlf) ∧ new.key = old.key ∧
        new.flags = old.flags ∧ new.exptime = old.exptime := by
  rw [storeConcat]
  rcases allocated : doItemAlloc slabs add.key old.flags old.exptime
      (add.nbytes + old.nbytes - 2) pull with ⟨_ | new, pull'⟩
  · exact ⟨none, pull', rfl, nofun⟩
  have fresh := doItemAlloc_spec sane short allocated
  rw [length_joined comm oldHolds addHolds] at fresh
  have total : new.ntotal slabs = old.joinedTotal slabs add := by
    rw [Stored.ntotal, Stored.joinedTotal, fresh.key, fresh.flags, fresh.nbytes,
      length_joined comm oldHolds addHolds]
  have long : 2 ≤ add.nbytes := by
    rw [addHolds.nbytes, List.length_append, length_crlf]
    omega
  have oldLe := ntotal_le_joinedTotal slabs same long
  rw [same]
  exact storeItemCopyData_spec sane comm oldHolds addHolds fresh (by omega) (by omega)
    pull'

/-- The stored value is the one that the model of the server computes. -/
theorem storeConcat_refines
    (chains : slabs.settings.slabChunkSizeMax < add.ntotal slabs →
      slabs.settings.slabChunkSizeMax < old.joinedTotal slabs add) (pull : Pull) :
    ∃ r pull', storeConcat slabs comm old add pull = .ok (r, pull') ∧
      ∀ new, r = some new → ∃ value, new.Holds slabs value ∧ ∀ xs alloc flat,
        Server.copyData comm (old.view (v ++ crlf)) (add.view (w ++ crlf)) (new.view xs)
          ⟨alloc, false, flat⟩ = some value := by
  obtain ⟨r, pull', ran, spec⟩ :=
    storeConcat_spec sane comm short same oldHolds addHolds chains pull
  refine ⟨r, pull', ran, fun new given => ?_⟩
  obtain ⟨newHolds, key, flags, -⟩ := spec new given
  have total : new.ntotal slabs = old.joinedTotal slabs add := by
    rw [Stored.ntotal, Stored.joinedTotal, key, flags, same, newHolds.nbytes,
      length_joined comm oldHolds addHolds]
  refine ⟨_, newHolds, fun xs alloc flat => ?_⟩
  have oldTake := take_crlf v
  have addTake := take_crlf w
  simp only [Server.copyData, Stored.view, Item.nbytes, joined]
  by_cases large : new.chunks.isSome
  · simp only [large, if_true, Bool.false_eq_true, if_false, oldTake, addTake]
    split <;> simp
  · have plain : ¬ add.chunks.isSome := fun chained =>
      large (newHolds.chunked_iff.mpr (total ▸ chains (addHolds.chunked_iff.mp chained)))
    simp only [large, plain, Bool.false_eq_true, if_false, oldTake, addTake]
    split <;> simp

/-- Append and prepend store the two values one behind the other, with one line end and with
the flags and the expiry of the old item, inside the memory of the new one, whatever
the allocations give, exactly if an uploaded chain makes the new item a chain, too. -/
theorem concat_correct_iff :
    (∀ pull, ∃ r pull', storeConcat slabs comm old add pull = .ok (r, pull') ∧
      ∀ new, r = some new → new.Holds slabs (joined comm v w ++ crlf) ∧ new.key = old.key ∧
        new.flags = old.flags ∧ new.exptime = old.exptime) ↔
    (slabs.settings.slabChunkSizeMax < add.ntotal slabs →
      slabs.settings.slabChunkSizeMax < old.joinedTotal slabs add) := by
  constructor
  · intro correct large
    by_contra small
    obtain ⟨r, pull', ran, -⟩ := correct [some fun _ => 0]
    rw [storeConcat_mixed sane comm short same oldHolds addHolds large (Nat.le_of_not_lt small)]
      at ran
    cases ran
  · exact storeConcat_spec sane comm short same oldHolds addHolds

end

/-- So many letters `a`, uploaded in the binary protocol. -/
def plainLetters (n : Nat) : Block UInt8 := ⟨n, fun _ => 97⟩

/-- `a` after a chain of two chunks, the first of which is one byte short of full. -/
theorem concat_correct_chained :
    ∃ old add, upload fewClasses true [107] 0 0 (plainLetters 524239) 3 [524239]
        (List.replicate 3 (some fun _ => 0)) = .ok (some old) ∧
      upload fewClasses false [107] 0 0 (letters 1) 1 [3] [some fun _ => 0] = .ok (some add) ∧
      old.chunks.map (List.map fun ch => ch.size - ch.used) = some [0, 1, 0] ∧
      ∀ pull, ∃ r pull', storeConcat fewClasses .append old add pull = .ok (r, pull') ∧
        ∀ new, r = some new → new.Holds fewClasses
            (joined .append ((plainLetters 524239).slice 0 524239) [97] ++ crlf) ∧
          new.key = old.key ∧ new.flags = old.flags ∧ new.exptime = old.exptime := by
  refine ⟨_, _, rfl, rfl, rfl, ?_⟩
  refine (concat_correct_iff (v := (plainLetters 524239).slice 0 524239) (w := [97])
    fewClasses_sane .append ?_ ?_ ?_ ?_).mpr ?_
  · decide
  · rfl
  · exact holds_of_upload fewClasses_sane true (show [107].length ≤ 250 by decide)
      (plainLetters 524239) (show upload fewClasses true [107] 0 0 (plainLetters 524239) 3 [524239]
        (List.replicate 3 (some fun _ => 0)) = _ from rfl)
  · exact holds_of_upload fewClasses_sane false (show [107].length ≤ 250 by decide) (letters 1)
      (show upload fewClasses false [107] 0 0 (letters 1) 1 [3] [some fun _ => 0] = _ from rfl)
  · decide

/-- The same chain, with itself behind it. -/
theorem storeConcat_refines_chained :
    ∃ it, it.chunks.map List.length = some 3 ∧ ∀ pull, ∃ r pull',
      storeConcat fewClasses .append it it pull = .ok (r, pull') ∧
      ∀ new, r = some new → ∃ value, new.Holds fewClasses value ∧ ∀ xs alloc flat,
        let data := (plainLetters 524239).slice 0 524239 ++ crlf
        Server.copyData .append (it.view data) (it.view data) (new.view xs) ⟨alloc, false, flat⟩ =
          some value := by
  have ran : upload fewClasses true [107] 0 0 (plainLetters 524239) 3 [524239]
    (List.replicate 3 (some fun _ => 0)) = .ok (some _) := rfl
  have holds := holds_of_upload fewClasses_sane true (by decide) (plainLetters 524239) ran
  exact ⟨_, rfl, storeConcat_refines (v := (plainLetters 524239).slice 0 524239)
    (w := (plainLetters 524239).slice 0 524239) fewClasses_sane .append (by decide) rfl holds holds
    (by decide)⟩

/-- With the default settings: an empty value without flags, to which 524193 letters with a
client flag are appended. The upload is a chain, and the new item would not be one. -/
theorem concat_overrun :
    ∃ old add,
      upload fewClasses false [107] 0 0 (letters 0) 1 [2] [some fun _ => 0] = .ok (some old) ∧
      upload fewClasses false [107] 1 0 (letters 524193) 3 [524195]
        [some fun _ => 0, some fun _ => 0] = .ok (some add) ∧
      storeConcat fewClasses .append old add [some fun _ => 0] = .error .invalidAccess :=
  ⟨_, _, rfl, rfl, rfl⟩

end Kvsev.Server.Concat
