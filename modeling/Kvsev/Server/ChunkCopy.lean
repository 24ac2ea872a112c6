import Kvsev.Memory.Bytes
import Kvsev.Memory.Copies
import Kvsev.Server.Text

/-!
# Writing into chains of chunks

`_store_item_copy_chunks` copies a value into the chunks of a large item. It fills
one chunk after the other and allocates the next as soon as one is full, whether
the source is one piece or a chain itself. `read_into_chunked_item` fills a chain
from the network.

Here the memory of a slab chunk is a block, and the fields of the headers are kept
beside it. A chain is looked at from the chunk a pointer is at. Chaining a new
chunk overwrites the pointer to the next one, so what came after it is lost.
-/

namespace Kvsev.Server.Concat

open Memory

/-- `ITEM_data`, which is also `ITEM_schunk` -/
def itemDataOffset (settings : Settings) (nkey flags : Nat) : Nat :=
  sizeofItem + nkey + 1 + suffixLength flags + if settings.useCas then 8 else 0

/-- The offset of `data` in an `item_chunk`. -/
def chunkDataOffset : Nat := 42

/-- The settings, and the sizes of the slab classes, smallest first. -/
structure Slabs where
  settings : Settings
  sizes : List Nat

/-- `slabclass[slabs_clsid(size)].size` -/
def slabSize : List Nat → Nat → Nat
  | [], _ => 0
  | [s], _ => s
  | s :: t :: sizes, size => if size ≤ s then s else slabSize (t :: sizes) size

/-- The outcomes of the allocations to come, with the contents of the memory; after
the last one there is no memory left. -/
abbrev Pull := List (Option (Nat → UInt8))

/-- `do_item_alloc_pull` -/
def doItemAllocPull (slabs : Slabs) (size : Nat) : Pull → Option (Block UInt8) × Pull
  | some cell :: pull =>
    (if slabsFits slabs.settings size then some ⟨slabSize slabs.sizes size, cell⟩ else none, pull)
  | none :: pull => (none, pull)
  | [] => (none, [])

/-- `item_chunk` in the memory of its slab chunk; `data` is an offset. -/
structure DataChunk where
  mem : Block UInt8
  data : Nat
  size : Nat
  used : Nat

def DataChunk.bytes (ch : DataChunk) : List UInt8 := ch.mem.slice ch.data ch.used

/-- A chain, seen from one of its chunks. -/
structure Cursor where
  front : List DataChunk
  dch : DataChunk
  after : List DataChunk

def Cursor.chunks (c : Cursor) : List DataChunk := c.front ++ c.dch :: c.after

/-- `do_item_alloc_chunk`, which moves on to the new chunk. -/
def doItemAllocChunk (slabs : Slabs) (c : Cursor) (bytesRemain : Nat) (pull : Pull) :
    Option Cursor × Pull :=
  let size := min (bytesRemain + sizeofItemChunk) slabs.settings.slabChunkSizeMax
  match doItemAllocPull slabs size pull with
  | (none, pull) => (none, pull)
  | (some mem, pull) =>
    (some ⟨c.front ++ [c.dch], ⟨mem, chunkDataOffset, size - sizeofItemChunk, 0⟩, []⟩, pull)

/-- Advance to a chunk with free space, or to the last one. -/
def advance (front : List DataChunk) (dch : DataChunk) : List DataChunk → Cursor
  | [] => ⟨front, dch, []⟩
  | next :: rest =>
    if dch.size = dch.used then advance (front ++ [dch]) next rest else ⟨front, dch, next :: rest⟩

/-- The part that both loops of `_store_item_copy_chunks` share: copy `todo` bytes and
allocate another chunk if this one is full. -/
def fill (slabs : Slabs) (c : Cursor) (src : Block UInt8) (soff todo remain : Nat) (pull : Pull) :
    Exec (Option Cursor × Pull) := do
  let mem ← c.dch.mem.memcpy (c.dch.data + c.dch.used) src soff todo
  let dch := { c.dch with mem, used := c.dch.used + todo }
  Exec.assert (dch.used ≤ dch.size)
  if dch.size = dch.used then return doItemAllocChunk slabs { c with dch } remain pull
  else return (some { c with dch }, pull)

/-- The loop over a source that is a chain. -/
def copyChunks (slabs : Slabs) :
    Nat → Cursor → List DataChunk → (copied remain : Nat) → Pull → Exec (Option Cursor × Pull)
  | 0, _, _, _, _, _ => throw .assertion
  | _ + 1, c, [], _, remain, pull => do
    Exec.assert (remain = 0)
    return (some c, pull)
  | fuel + 1, c, sch :: rest, copied, remain, pull =>
    if remain = 0 then return (some c, pull)
    else do
      Exec.assert (c.dch.used ≤ c.dch.size)
      let todo := min (min (c.dch.size - c.dch.used) (sch.used - copied)) remain
      match ← fill slabs c sch.mem (sch.data + copied) todo (remain - todo) pull with
      | (none, pull) => return (none, pull)
      | (some c, pull) =>
        Exec.assert (copied + todo ≤ sch.used)
        if copied + todo = sch.used then copyChunks slabs fuel c rest 0 (remain - todo) pull
        else copyChunks slabs fuel c (sch :: rest) (copied + todo) (remain - todo) pull

/-- The loop over a source in one piece, of which `remain` bytes from `soff` on are left. -/
def copyData (slabs : Slabs) :
    Nat → Cursor → Block UInt8 → (soff remain : Nat) → Pull → Exec (Option Cursor × Pull)
  | 0, _, _, _, _, _ => throw .assertion
  | fuel + 1, c, src, soff, remain, pull =>
    if remain = 0 then return (some c, pull)
    else do
      let todo := min (c.dch.size - c.dch.used) remain
      match ← fill slabs c src soff todo (remain - todo) pull with
      | (none, pull) => return (none, pull)
      | (some c, pull) => copyData slabs fuel c src (soff + todo) (remain - todo) pull

/-- `read_into_chunked_item`, with the calls of it for one upload taken together. The
data block is `stream`, of which `pos` bytes are stored; each number says how many bytes
one read could give. The chunk it writes to is always the last one. The binary protocol
has no line end in the data block, and two bytes are kept free for it. -/
def readIntoChunkedItem (slabs : Slabs) (binary : Bool) (stream : Block UInt8) :
    Nat → Cursor → (rlbytes pos : Nat) → List Nat → Pull → Exec (Option Cursor × Pull)
  | 0, _, _, _, _, pull => return (none, pull)
  | fuel + 1, c, rlbytes, pos, counts, pull =>
    if rlbytes = 0 then
      if binary ∧ c.dch.size - c.dch.used < 2 then return doItemAllocChunk slabs c 2 pull
      else return (some c, pull)
    else if c.dch.size = c.dch.used then
      match doItemAllocChunk slabs c (rlbytes + if binary then 2 else 0) pull with
      | (none, pull) => return (none, pull)
      | (some c, pull) => readIntoChunkedItem slabs binary stream fuel c rlbytes pos counts pull
    else
      match counts with
      | [] => return (none, pull)
      | count :: counts => do
        let tocopy := min (min count rlbytes) (c.dch.size - c.dch.used)
        let mem ← c.dch.mem.memcpy (c.dch.data + c.dch.used) stream pos tocopy
        let dch := { c.dch with mem, used := c.dch.used + tocopy }
        readIntoChunkedItem slabs binary stream fuel { c with dch } (rlbytes - tocopy)
          (pos + tocopy) counts pull

/-! ## What a chain holds -/

/-- What a chain holds. -/
def bytes (chunks : List DataChunk) : List UInt8 := chunks.flatMap DataChunk.bytes

theorem bytes_append (xs ys : List DataChunk) : bytes (xs ++ ys) = bytes xs ++ bytes ys := by
  simp [bytes]

theorem bytes_cons (ch : DataChunk) (chunks : List DataChunk) :
    bytes (ch :: chunks) = ch.bytes ++ bytes chunks := by
  simp [bytes]

/-- The chunk is inside its memory. -/
structure DataChunk.Valid (ch : DataChunk) : Prop where
  used : ch.used ≤ ch.size
  inside : ch.data + ch.size ≤ ch.mem.size

/-- The largest class has chunks of the size at which items are split, holds the header of
a large item, and is not larger than an item may be. -/
structure Slabs.Sane (slabs : Slabs) : Prop where
  largest : slabs.sizes.getLast? = some slabs.settings.slabChunkSizeMax
  bounded : ∀ s ∈ slabs.sizes, s ≤ slabs.settings.slabChunkSizeMax
  header : sizeofItem + 251 + 4 + 8 + sizeofItemChunk ≤ slabs.settings.slabChunkSizeMax
  items : slabs.settings.slabChunkSizeMax ≤ slabs.settings.itemSizeMax

/-- The cursor is at the last chunk of a chain with these bytes. -/
structure Cursor.Shows (c : Cursor) (xs : List UInt8) : Prop where
  last : c.after = []
  valid : ∀ ch ∈ c.chunks, ch.Valid
  bytes : bytes c.chunks = xs

/-- Every chunk before the last is full. -/
structure Cursor.Holds (c : Cursor) (xs : List UInt8) : Prop extends c.Shows xs where
  full : ∀ ch ∈ c.front, ch.used = ch.size

variable {slabs : Slabs} {c c' : Cursor} {xs : List UInt8} {src : Block UInt8} {pull : Pull}
  {size soff todo remain copied fuel : Nat}

theorem slabSize_spec {sizes : List Nat} {largest : Nat} (size : Nat)
    (last : sizes.getLast? = some largest) (bounded : ∀ s ∈ sizes, s ≤ largest) :
    slabSize sizes size ≤ largest ∧ (size ≤ largest → size ≤ slabSize sizes size) := by
  fun_induction slabSize sizes size with
  | case1 => cases last
  | case2 s size =>
    obtain rfl : s = largest := Option.some.inj last
    exact ⟨Nat.le_refl _, id⟩
  | case3 s t sizes size le => exact ⟨bounded s List.mem_cons_self, fun _ => le⟩
  | case4 s t sizes size le ih =>
    exact ih (by rw [← last, List.getLast?_cons_cons]) fun s mem =>
      bounded s (List.mem_cons_of_mem _ mem)

/-- The block of a slab chunk is at least as large as asked for. -/
theorem doItemAllocPull_spec (sane : slabs.Sane) {mem : Block UInt8} {pull' : Pull}
    (pulled : doItemAllocPull slabs size pull = (some mem, pull')) :
    mem.size ≤ slabs.settings.slabChunkSizeMax ∧
      (size ≤ slabs.settings.slabChunkSizeMax → size ≤ mem.size) := by
  have spec := slabSize_spec size sane.largest sane.bounded
  fun_cases doItemAllocPull slabs size pull with
  | case1 cell pull =>
    simp only [doItemAllocPull, Prod.mk.injEq] at pulled
    obtain ⟨given, -⟩ := pulled
    split at given
    · cases given
      exact spec
    · cases given
  | case2 | case3 => cases pulled

/-- A new chunk is empty, and has room for what is left to be written. -/
theorem Cursor.Shows.chain (sane : slabs.Sane) (shows : c.Shows xs) {pull' : Pull}
    (chained : doItemAllocChunk slabs c remain pull = (some c', pull')) :
    c'.Shows xs ∧ c'.front = c.front ++ [c.dch] ∧ min remain 2 ≤ c'.dch.size - c'.dch.used := by
  simp only [doItemAllocChunk] at chained
  split at chained
  · cases chained
  rename_i mem _ pulled
  cases chained
  have fits := doItemAllocPull_spec sane pulled
  have header := sane.header
  have chunks : c.chunks = c.front ++ [c.dch] := by rw [Cursor.chunks, shows.last]
  simp only [sizeofItem, sizeofItemChunk] at header fits ⊢
  refine ⟨⟨rfl, ?_, ?_⟩, trivial, by omega⟩
  · intro ch mem
    rw [Cursor.chunks, ← chunks] at mem
    obtain mem | rfl := List.mem_append.mp mem |>.imp_right List.mem_singleton.mp
    · exact shows.valid ch mem
    · exact ⟨Nat.zero_le _, by simp only [chunkDataOffset]; omega⟩
  · rw [Cursor.chunks, ← chunks, bytes_append, shows.bytes]
    simp [Concat.bytes, DataChunk.bytes]

@[simp] theorem length_bytes (ch : DataChunk) : ch.bytes.length = ch.used := by
  simp [DataChunk.bytes]

theorem Cursor.Shows.dch_valid (shows : c.Shows xs) : c.dch.Valid :=
  shows.valid c.dch (by simp [Cursor.chunks])

/-- Bytes written behind what the last chunk holds. -/
theorem Cursor.Shows.write (shows : c.Shows xs) (readable : soff + todo ≤ src.size)
    (room : todo ≤ c.dch.size - c.dch.used) :
    ∃ mem, c.dch.mem.memcpy (c.dch.data + c.dch.used) src soff todo = .ok mem ∧
      Cursor.Shows { c with dch := { c.dch with mem, used := c.dch.used + todo } }
        (xs ++ src.slice soff todo) := by
  have used := shows.dch_valid.used
  have inside := shows.dch_valid.inside
  obtain ⟨mem, wrote, copies⟩ := Block.memcpy_spec readable
    (show c.dch.data + c.dch.used + todo ≤ c.dch.mem.size by omega)
  let dch : DataChunk := { c.dch with mem, used := c.dch.used + todo }
  have valid : dch.Valid := by
    refine ⟨?_, ?_⟩ <;> simp only [dch, copies.size] <;> omega
  have bytes' : dch.bytes = c.dch.bytes ++ src.slice soff todo := copies.slice_append
  refine ⟨mem, wrote, shows.last, ?_, ?_⟩
  · intro ch mem
    simp only [Cursor.chunks, shows.last, List.mem_append, List.mem_singleton] at mem
    obtain before | rfl := mem
    · exact shows.valid ch (by simp [Cursor.chunks, before])
    · exact valid
  · rw [← shows.bytes]
    change Concat.bytes (c.front ++ dch :: c.after) = _
    simp [Cursor.chunks, shows.last, bytes', Concat.bytes]

theorem Cursor.Holds.chain (sane : slabs.Sane) (holds : c.Holds xs) (full : c.dch.size = c.dch.used)
    {pull' : Pull} (chained : doItemAllocChunk slabs c remain pull = (some c', pull')) :
    c'.Holds xs ∧ (remain = 0 ∨ c'.dch.used < c'.dch.size) := by
  obtain ⟨shows, front, room⟩ := holds.toShows.chain sane chained
  refine ⟨⟨shows, fun ch mem => ?_⟩, by omega⟩
  rw [front] at mem
  obtain before | rfl := List.mem_append.mp mem |>.imp_right List.mem_singleton.mp
  · exact holds.full ch before
  · exact full.symm

/-- One iteration writes the next bytes, and leaves room unless it was the last. -/
theorem fill_spec (sane : slabs.Sane) (holds : c.Holds xs) (readable : soff + todo ≤ src.size)
    (room : todo ≤ c.dch.size - c.dch.used) (remain : Nat) (pull : Pull) :
    ∃ r pull', fill slabs c src soff todo remain pull = .ok (r, pull') ∧
      ∀ c', r = some c' → c'.Holds (xs ++ src.slice soff todo) ∧
        (remain = 0 ∨ c'.dch.used < c'.dch.size) := by
  obtain ⟨mem, wrote, shows'⟩ := holds.write readable room
  let dch : DataChunk := { c.dch with mem, used := c.dch.used + todo }
  have ran : fill slabs c src soff todo remain pull = do
      Exec.assert (dch.used ≤ dch.size)
      if dch.size = dch.used then return doItemAllocChunk slabs { c with dch } remain pull
      else return (some { c with dch }, pull) := by
    rw [fill, wrote]
    rfl
  have holds' : Cursor.Holds { c with dch } (xs ++ src.slice soff todo) := ⟨shows', holds.full⟩
  have valid : dch.Valid := holds'.dch_valid
  rw [ran, Exec.assert_of valid.used, Exec.ok_bind]
  by_cases full : dch.size = dch.used
  · rw [if_pos full]
    exact ⟨_, _, rfl, fun c' chained => holds'.chain sane full (Prod.ext chained rfl)⟩
  · rw [if_neg full]
    refine ⟨_, _, rfl, fun c' same => ?_⟩
    cases same
    exact ⟨holds', .inr (Nat.lt_of_le_of_ne valid.used (Ne.symm full))⟩

/-- Fuel for a loop with `work` bytes and chunks to go. If the chunk is full while bytes
are left, the first iteration only allocates one. -/
def Enough (c : Cursor) (remain work fuel : Nat) : Prop :=
  work + 2 ≤ fuel ∨ (remain = 0 ∨ c.dch.used < c.dch.size) ∧ work + 1 ≤ fuel

theorem Enough.pos {work : Nat} (enough : Enough c remain work fuel) : 0 < fuel := by
  simp only [Enough] at enough
  omega

/-- A source in one piece is copied behind what the chain holds already. -/
theorem copyData_spec (sane : slabs.Sane) (holds : c.Holds xs) (readable : soff + remain ≤ src.size)
    (enough : Enough c remain remain fuel) (pull : Pull) :
    ∃ r pull', copyData slabs fuel c src soff remain pull = .ok (r, pull') ∧
      ∀ c', r = some c' → c'.Holds (xs ++ src.slice soff remain) := by
  induction fuel generalizing c xs soff remain pull with
  | zero => exact absurd enough.pos (Nat.lt_irrefl 0)
  | succ fuel ih =>
    rw [copyData]
    by_cases none : remain = 0
    · subst none
      exact ⟨some c, pull, rfl, fun c' same => by cases same; simpa using holds⟩
    rw [if_neg none]
    have used := holds.dch_valid.used
    obtain ⟨todo, min_eq⟩ : ∃ t, min (c.dch.size - c.dch.used) remain = t := ⟨_, rfl⟩
    obtain ⟨r, pull', filled, grows⟩ := fill_spec sane holds
      (show soff + todo ≤ src.size by omega) (by omega) (remain - todo) pull
    simp only [min_eq, filled, Exec.ok_bind]
    cases r with
    | none => exact ⟨_, pull', rfl, nofun⟩
    | some c' =>
      obtain ⟨holds', room⟩ := grows c' rfl
      have enough' : Enough c' (remain - todo) (remain - todo) fuel := by
        simp only [Enough] at enough ⊢
        omega
      obtain ⟨r, pull'', ran, done⟩ :=
        ih holds' (show soff + todo + (remain - todo) ≤ src.size by omega) enough' pull'
      refine ⟨r, pull'', ran, fun c'' same => ?_⟩
      have all : todo + (remain - todo) = remain := by omega
      rw [← all, Block.slice_add, ← List.append_assoc]
      exact done c'' same

/-- A chain is copied behind what the chain holds already. -/
theorem copyChunks_spec (sane : slabs.Sane) (holds : c.Holds xs) {chunks : List DataChunk}
    (valid : ∀ ch ∈ chunks, ch.Valid) (start : ∀ ch ∈ chunks.head?, copied ≤ ch.used)
    (long : copied + remain ≤ (bytes chunks).length)
    (enough : Enough c remain (remain + chunks.length) fuel) (pull : Pull) :
    ∃ r pull', copyChunks slabs fuel c chunks copied remain pull = .ok (r, pull') ∧
      ∀ c', r = some c' → c'.Holds (xs ++ ((bytes chunks).drop copied).take remain) := by
  induction fuel generalizing c xs chunks copied remain pull with
  | zero => exact absurd enough.pos (Nat.lt_irrefl 0)
  | succ fuel ih =>
    cases chunks with
    | nil =>
      obtain rfl : remain = 0 := by simp [bytes] at long; omega
      exact ⟨some c, pull, rfl, fun c' same => by cases same; simpa using holds⟩
    | cons sch rest =>
      rw [copyChunks]
      by_cases none : remain = 0
      · subst none
        exact ⟨some c, pull, rfl, fun c' same => by cases same; simpa using holds⟩
      rw [if_neg none, Exec.assert_of holds.dch_valid.used, Exec.ok_bind]
      have used := holds.dch_valid.used
      have begun : copied ≤ sch.used := start sch rfl
      have source := valid sch List.mem_cons_self
      have sourceUsed := source.used
      have sourceInside := source.inside
      obtain ⟨todo, min_eq⟩ :
          ∃ t, min (min (c.dch.size - c.dch.used) (sch.used - copied)) remain = t := ⟨_, rfl⟩
      obtain ⟨r, pull', filled, grows⟩ := fill_spec sane holds
        (show sch.data + copied + todo ≤ sch.mem.size by omega) (by omega) (remain - todo) pull
      simp only [min_eq, filled, Exec.ok_bind]
      cases r with
      | none => exact ⟨_, pull', rfl, nofun⟩
      | some c' =>
        obtain ⟨holds', room⟩ := grows c' rfl
        simp only [Exec.assert_of (show copied + todo ≤ sch.used by omega), Exec.ok_bind]
        rw [bytes_cons, List.length_append, length_bytes] at long
        rw [List.length_cons] at enough
        -- what is left of the source is what was copied and what is left after it
        have split : ((bytes (sch :: rest)).drop copied).take remain =
            sch.mem.slice (sch.data + copied) todo ++
              ((bytes (sch :: rest)).drop (copied + todo)).take (remain - todo) := by
          have here : ((bytes (sch :: rest)).drop copied).take todo =
              sch.mem.slice (sch.data + copied) todo := by
            rw [bytes_cons, List.drop_append_of_le_length (by simpa using begun),
              DataChunk.bytes, Block.drop_slice begun,
              List.take_append_of_le_length (by simp; omega), Block.take_slice (by omega)]
          have all : todo + (remain - todo) = remain := by omega
          rw [← all, List.take_add, here, List.drop_drop, Nat.add_sub_cancel_left]
        rw [split, ← List.append_assoc]
        by_cases exhausted : copied + todo = sch.used
        · rw [if_pos exhausted]
          have next : (bytes (sch :: rest)).drop (copied + todo) = (bytes rest).drop 0 := by
            rw [bytes_cons, exhausted, List.drop_append_of_le_length (by simp),
              List.drop_of_length_le (by simp), List.drop_zero, List.nil_append]
          rw [next]
          refine ih holds' (fun ch mem => valid ch (List.mem_cons_of_mem sch mem))
            (fun _ _ => Nat.zero_le _) (by omega) ?_ pull'
          simp only [Enough] at enough ⊢
          omega
        · rw [if_neg exhausted]
          refine ih holds' valid ?_ ?_ ?_ pull'
          · rintro ch ⟨⟩
            omega
          · rw [bytes_cons, List.length_append, length_bytes]
            omega
          · simp only [Enough, List.length_cons] at enough ⊢
            omega

/-- An upload stores the bytes of the data block in order. -/
theorem readIntoChunkedItem_spec (sane : slabs.Sane) (binary : Bool) {stream : Block UInt8}
    {rlbytes pos : Nat} (holds : c.Holds (stream.slice 0 pos)) (size : pos + rlbytes ≤ stream.size)
    (fuel : Nat) (counts : List Nat) (pull : Pull) :
    ∃ r pull', readIntoChunkedItem slabs binary stream fuel c rlbytes pos counts pull =
        .ok (r, pull') ∧ ∀ c', r = some c' → c'.Shows (stream.slice 0 (pos + rlbytes)) ∧
          (binary → 2 ≤ c'.dch.size - c'.dch.used) := by
  induction fuel generalizing c rlbytes pos counts pull with
  | zero => exact ⟨none, pull, rfl, nofun⟩
  | succ fuel ih =>
    rw [readIntoChunkedItem.eq_def]
    by_cases done : rlbytes = 0
    · subst done
      simp only [if_true]
      split
      · refine ⟨_, _, rfl, fun c' chained => ?_⟩
        obtain ⟨shows, -, room⟩ := holds.toShows.chain sane (Prod.ext chained rfl)
        exact ⟨shows, fun _ => room⟩
      · rename_i room
        refine ⟨some c, pull, rfl, fun c' same => ?_⟩
        cases same
        exact ⟨holds.toShows, fun isBinary => Nat.le_of_not_lt fun few => room ⟨isBinary, few⟩⟩
    simp only [if_neg done]
    by_cases full : c.dch.size = c.dch.used
    · rw [if_pos full]
      rcases chained : doItemAllocChunk slabs c (rlbytes + if binary then 2 else 0) pull with
        ⟨_ | c', pull'⟩
      · exact ⟨none, pull', rfl, nofun⟩
      · exact ih (holds.chain sane full chained).1 size counts pull'
    rw [if_neg full]
    cases counts with
    | nil => exact ⟨none, pull, rfl, nofun⟩
    | cons count counts =>
      obtain ⟨tocopy, min_eq⟩ :
          ∃ n, min (min count rlbytes) (c.dch.size - c.dch.used) = n := ⟨_, rfl⟩
      obtain ⟨mem, wrote, shows'⟩ := holds.write
        (show pos + tocopy ≤ stream.size by omega) (by omega)
      have more : stream.slice 0 pos ++ stream.slice pos tocopy =
          stream.slice 0 (pos + tocopy) := by rw [Block.slice_add, Nat.zero_add]
      rw [more] at shows'
      simp only [min_eq, wrote, Exec.ok_bind]
      have all : pos + rlbytes = pos + tocopy + (rlbytes - tocopy) := by omega
      rw [all]
      exact ih ⟨shows', holds.full⟩ (by omega) counts pull

end Kvsev.Server.Concat
