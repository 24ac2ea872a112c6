import Kvsev.Server.ChunkCopy

/-!
# Where the bytes of a value lie

`do_item_alloc` puts a small item into one slab chunk, with the value right
behind the header, and gives a large one only a header with an empty inner
chunk, to which `read_into_chunked_item` chains the chunks that take the value.
`AES_CMAC` is called on the bytes behind the header in both cases.

A data block of the text protocol includes its line end. `complete_update_bin` writes
the one of the binary protocol, which may need a chunk of its own.
-/

namespace Kvsev.Server.Concat

open Memory Cmac

/-- An item in its slab chunk `mem`. `chunks` is the chain of a large item, which starts
with the chunk in its header. -/
structure Stored where
  key : Key
  flags : Nat
  exptime : Nat
  nbytes : Nat
  mem : Block UInt8
  chunks : Option (List DataChunk)

/-- `ITEM_data` -/
def Stored.itemData (slabs : Slabs) (it : Stored) : Nat :=
  itemDataOffset slabs.settings it.key.length it.flags

/-- `ITEM_ntotal` -/
def Stored.ntotal (slabs : Slabs) (it : Stored) : Nat :=
  itemTotal slabs.settings it.key.length it.flags it.nbytes

/-- `do_item_alloc` -/
def doItemAlloc (slabs : Slabs) (key : Key) (flags exptime nbytes : Nat) (pull : Pull) :
    Option Stored × Pull :=
  let data := itemDataOffset slabs.settings key.length flags
  if ¬ itemSizeOk slabs.settings key.length flags nbytes then (none, pull)
  else if isLarge slabs.settings key.length flags nbytes then
    match doItemAllocPull slabs (data + sizeofItemChunk) pull with
    | (none, pull) => (none, pull)
    | (some mem, pull) =>
      let schunk : DataChunk := ⟨mem, data + chunkDataOffset, 0, 0⟩
      (some ⟨key, flags, exptime, nbytes, mem, some [schunk]⟩, pull)
  else
    match doItemAllocPull slabs (itemTotal slabs.settings key.length flags nbytes) pull with
    | (none, pull) => (none, pull)
    | (some mem, pull) => (some ⟨key, flags, exptime, nbytes, mem, none⟩, pull)

/-- The `conn_nread` state for a plain item. -/
def nreadFlat (stream : Block UInt8) (data : Nat) :
    Block UInt8 → (rlbytes pos : Nat) → List Nat → Exec (Option (Block UInt8))
  | mem, 0, _, _ => return some mem
  | _, _ + 1, _, [] => return none
  | mem, rlbytes, pos, count :: counts => do
    let tocopy := min count rlbytes
    let mem ← mem.memcpy (data + pos) stream pos tocopy
    nreadFlat stream data mem (rlbytes - tocopy) (pos + tocopy) counts

/-- What `complete_update_bin` writes behind the data block. -/
def lineEnd (binary : Bool) : Block UInt8 := .ofList (if binary then crlf else [])

/-- A storage command with its data block, up to the call of `store_item`. -/
def upload (slabs : Slabs) (binary : Bool) (key : Key) (flags exptime : Nat)
    (stream : Block UInt8) (fuel : Nat) (counts : List Nat) (pull : Pull) : Exec (Option Stored) :=
  let eol := lineEnd binary
  match doItemAlloc slabs key flags exptime (stream.size + eol.size) pull with
  | (none, _) => return none
  | (some it, pull) =>
    match it.chunks with
    | some (schunk :: rest) => do
      let start : Cursor := ⟨[], schunk, rest⟩
      match ← readIntoChunkedItem slabs binary stream fuel start stream.size 0 counts pull with
      | (none, _) => return none
      | (some c, _) =>
        let mem ← c.dch.mem.memcpy (c.dch.data + c.dch.used) eol 0 eol.size
        let dch := { c.dch with mem, used := c.dch.used + eol.size }
        return some { it with chunks := some { c with dch }.chunks }
    | some [] => throw .invalidAccess
    | none => do
      match ← nreadFlat stream (it.itemData slabs) it.mem stream.size 0 counts with
      | none => return none
      | some mem =>
        let mem ← mem.memcpy (it.itemData slabs + stream.size) eol 0 eol.size
        return some { it with mem }

/-! ## Items that hold a value -/

/-- A chain with these bytes. Any of its chunks may be empty, or not full. -/
structure Chain (chunks : List DataChunk) (xs : List UInt8) : Prop where
  valid : ∀ ch ∈ chunks, ch.Valid
  bytes : bytes chunks = xs

theorem Cursor.Shows.toChain {c : Cursor} {xs : List UInt8} (shows : c.Shows xs) :
    Chain c.chunks xs := ⟨shows.valid, shows.bytes⟩

/-- The item holds these bytes, in one piece or in a chain as its size demands. -/
structure Stored.Holds (slabs : Slabs) (it : Stored) (xs : List UInt8) : Prop where
  nbytes : it.nbytes = xs.length
  mem : it.mem.size ≤ slabs.settings.slabChunkSizeMax
  body : match it.chunks with
    | some chunks => slabs.settings.slabChunkSizeMax < it.ntotal slabs ∧ Chain chunks xs
    | none => it.ntotal slabs ≤ slabs.settings.slabChunkSizeMax ∧
        it.itemData slabs + xs.length ≤ it.mem.size ∧
        it.mem.slice (it.itemData slabs) xs.length = xs

variable {slabs : Slabs} {xs : List UInt8} {it new : Stored} {pull pull' : Pull} {key : Key}
  {flags exptime nbytes : Nat}

/-- What `do_item_alloc` hands out. -/
structure Fresh (slabs : Slabs) (key : Key) (flags exptime nbytes : Nat) (new : Stored) : Prop where
  key : new.key = key
  flags : new.flags = flags
  exptime : new.exptime = exptime
  nbytes : new.nbytes = nbytes
  mem : new.mem.size ≤ slabs.settings.slabChunkSizeMax
  body : match new.chunks with
    | some chunks => slabs.settings.slabChunkSizeMax < new.ntotal slabs ∧
        Chain chunks [] ∧ chunks.length = 1
    | none => new.ntotal slabs ≤ slabs.settings.slabChunkSizeMax ∧
        new.ntotal slabs ≤ new.mem.size

theorem itemData_add_nbytes (slabs : Slabs) (it : Stored) :
    it.itemData slabs + it.nbytes = it.ntotal slabs := by
  simp only [Stored.itemData, Stored.ntotal, itemDataOffset, itemTotal, itemMakeHeader]
  omega

theorem itemDataOffset_le (settings : Settings) {nkey : Nat} (flags : Nat) (short : nkey ≤ 250) :
    itemDataOffset settings nkey flags ≤ sizeofItem + 251 + 4 + 8 := by
  have suffix : suffixLength flags ≤ 4 := by
    rw [suffixLength]
    split <;> omega
  have cas : (if settings.useCas then 8 else 0) ≤ 8 := by split <;> omega
  rw [itemDataOffset]
  omega

theorem doItemAlloc_spec (sane : slabs.Sane) (short : key.length ≤ 250)
    (allocated : doItemAlloc slabs key flags exptime nbytes pull = (some new, pull')) :
    Fresh slabs key flags exptime nbytes new := by
  simp only [doItemAlloc] at allocated
  split at allocated
  · cases allocated
  split at allocated
  · rename_i large
    split at allocated
    · cases allocated
    rename_i mem _ pulled
    cases allocated
    have header := sane.header
    have fits := doItemAllocPull_spec sane pulled
    have data := itemDataOffset_le slabs.settings flags short
    have total : slabs.settings.slabChunkSizeMax <
        itemTotal slabs.settings key.length flags nbytes := by simpa [isLarge] using large
    refine ⟨rfl, rfl, rfl, rfl, fits.1, total, ⟨?_, rfl⟩, rfl⟩
    intro ch mem
    obtain rfl := List.mem_singleton.mp mem
    refine ⟨Nat.le_refl _, ?_⟩
    simp only [sizeofItemChunk, chunkDataOffset] at fits header ⊢
    omega
  · rename_i small
    split at allocated
    · cases allocated
    rename_i mem _ pulled
    cases allocated
    have fits := doItemAllocPull_spec sane pulled
    have total : itemTotal slabs.settings key.length flags nbytes ≤
        slabs.settings.slabChunkSizeMax := by simpa [isLarge] using small
    exact ⟨rfl, rfl, rfl, rfl, fits.1, total, fits.2 total⟩

/-- A plain item holds its bytes behind its header. -/
theorem Stored.Holds.flat (holds : it.Holds slabs xs)
    (small : it.ntotal slabs ≤ slabs.settings.slabChunkSizeMax) :
    it.itemData slabs + xs.length ≤ it.mem.size ∧
      it.mem.slice (it.itemData slabs) xs.length = xs := by
  have body := holds.body
  cases large : it.chunks with
  | some chunks =>
    simp only [large] at body
    omega
  | none =>
    simp only [large] at body
    exact body.2

/-- Behind the header of a chain there is less than its length. -/
theorem Stored.Holds.memcpy_large (holds : it.Holds slabs xs)
    (large : slabs.settings.slabChunkSizeMax < it.ntotal slabs) (dst : Block UInt8) (doff : Nat) :
    dst.memcpy doff it.mem (it.itemData slabs) it.nbytes = .error .invalidAccess := by
  have mem := holds.mem
  have total := itemData_add_nbytes slabs it
  exact Block.memcpy_outside (by omega)

/-! ## Uploads -/

section

variable {stream mem mem' : Block UInt8} {data rlbytes pos : Nat} {counts : List Nat}

theorem nreadFlat_returns (room : data + pos + rlbytes ≤ mem.size)
    (size : pos + rlbytes ≤ stream.size) (counts : List Nat) :
    ∃ r, nreadFlat stream data mem rlbytes pos counts = .ok r := by
  induction counts generalizing mem rlbytes pos with
  | nil => cases rlbytes <;> exact ⟨_, rfl⟩
  | cons count counts ih =>
    cases rlbytes with
    | zero => exact ⟨_, rfl⟩
    | succ n =>
      obtain ⟨mem', ran, copies⟩ := Block.memcpy_spec
        (show pos + min count (n + 1) ≤ stream.size by omega)
        (show data + pos + min count (n + 1) ≤ mem.size by omega)
      rw [nreadFlat, ran, Exec.ok_bind]
      · exact ih (by rw [copies.size]; omega) (by omega)
      · exact Nat.succ_ne_zero n

theorem nreadFlat_shows (stored : mem.slice data pos = stream.slice 0 pos)
    (ran : nreadFlat stream data mem rlbytes pos counts = .ok (some mem')) :
    mem'.size = mem.size ∧ mem'.slice data (pos + rlbytes) = stream.slice 0 (pos + rlbytes) := by
  fun_induction nreadFlat stream data mem rlbytes pos counts with
  | case1 =>
    cases ran
    exact ⟨rfl, stored⟩
  | case2 => cases ran
  | case3 mem rlbytes pos count counts _ tocopy ih =>
    obtain ⟨mem₁, copied, ran⟩ := Exec.bind_eq_ok.mp ran
    obtain ⟨copies, -⟩ := Block.copies_of_memcpy copied
    have stored' : mem₁.slice data (pos + tocopy) = stream.slice 0 (pos + tocopy) := by
      rw [copies.slice_append, stored, Block.slice_add stream, Nat.zero_add]
    obtain ⟨size, shown⟩ := ih mem₁ stored' ran
    have all : pos + tocopy + (rlbytes - tocopy) = pos + rlbytes := by omega
    rw [all] at shown
    exact ⟨size.trans copies.size, shown⟩

end

theorem lineEnd_slice (binary : Bool) :
    (lineEnd binary).slice 0 (lineEnd binary).size = if binary then crlf else [] :=
  Block.slice_ofList _

/-- Every upload that is complete gives an item that holds its data block. -/
theorem upload_holds (sane : slabs.Sane) (binary : Bool) (short : key.length ≤ 250)
    (flags exptime : Nat) (stream : Block UInt8) (fuel : Nat) (counts : List Nat) (pull : Pull) :
    ∃ r, upload slabs binary key flags exptime stream fuel counts pull = .ok r ∧
      ∀ it, r = some it →
        it.Holds slabs (stream.slice 0 stream.size ++ if binary then crlf else []) ∧
        it.key = key ∧ it.flags = flags ∧ it.exptime = exptime := by
  rw [← lineEnd_slice, upload]
  obtain ⟨eol, eol_eq⟩ : ∃ eol, lineEnd binary = eol := ⟨_, rfl⟩
  simp only [eol_eq]
  rcases allocated : doItemAlloc slabs key flags exptime (stream.size + eol.size) pull with
    ⟨_ | it, pull'⟩
  · exact ⟨none, rfl, nofun⟩
  have fresh := doItemAlloc_spec sane short allocated
  have body := fresh.body
  have nbytes : it.nbytes = (stream.slice 0 stream.size ++ eol.slice 0 eol.size).length := by
    simpa using fresh.nbytes
  cases chained : it.chunks with
  | some chunks =>
    simp only [chained] at body ⊢
    obtain ⟨large, chain, one⟩ := body
    obtain ⟨schunk, rfl⟩ := List.length_eq_one_iff.mp one
    have start : Cursor.Holds ⟨[], schunk, []⟩ (stream.slice 0 0) :=
      ⟨⟨rfl, chain.valid, chain.bytes⟩, nofun⟩
    obtain ⟨r, pull'', ran, done⟩ := readIntoChunkedItem_spec sane binary start
      (show 0 + stream.size ≤ stream.size by omega) fuel counts pull'
    simp only [ran, Exec.ok_bind]
    cases r with
    | none => exact ⟨none, rfl, nofun⟩
    | some c =>
      obtain ⟨shows, room⟩ := done c rfl
      have fits : eol.size ≤ c.dch.size - c.dch.used := by
        rw [← eol_eq]
        cases binary with
        | false => exact Nat.zero_le _
        | true => exact room rfl
      obtain ⟨mem, wrote, shows'⟩ := shows.write (show 0 + eol.size ≤ eol.size by omega) fits
      rw [Nat.zero_add] at shows'
      refine ⟨_, by simp only [wrote, Exec.ok_bind]; rfl, fun it' same => ?_⟩
      cases same
      exact ⟨⟨nbytes, fresh.mem, large, shows'.toChain⟩, fresh.key, fresh.flags, fresh.exptime⟩
  | none =>
    simp only [chained] at body ⊢
    have total := itemData_add_nbytes slabs it
    have length := fresh.nbytes
    obtain ⟨r, ran⟩ := nreadFlat_returns
      (show it.itemData slabs + 0 + stream.size ≤ it.mem.size by omega)
      (show 0 + stream.size ≤ stream.size by omega) counts
    simp only [ran, Exec.ok_bind]
    cases r with
    | none => exact ⟨none, rfl, nofun⟩
    | some mem =>
      obtain ⟨size, shown⟩ := nreadFlat_shows (by rfl) ran
      rw [Nat.zero_add] at shown
      obtain ⟨mem', wrote, copies⟩ := Block.memcpy_spec (show 0 + eol.size ≤ eol.size by omega)
        (show it.itemData slabs + stream.size + eol.size ≤ mem.size by omega)
      refine ⟨_, by simp only [wrote, Exec.ok_bind]; rfl, fun it' same => ?_⟩
      cases same
      have size' := copies.size.trans size
      refine ⟨⟨nbytes, size'.trans_le fresh.mem, ?_⟩, fresh.key, fresh.flags, fresh.exptime⟩
      simp only [← nbytes]
      refine ⟨body.1, ?_, ?_⟩
      · change it.itemData slabs + it.nbytes ≤ mem'.size
        omega
      · change mem'.slice (it.itemData slabs) it.nbytes = _
        rw [length, copies.slice_append, shown]

theorem holds_of_upload (sane : slabs.Sane) (binary : Bool) (short : key.length ≤ 250)
    (stream : Block UInt8) {fuel : Nat} {counts : List Nat}
    (uploaded : upload slabs binary key flags exptime stream fuel counts pull = .ok (some it)) :
    it.Holds slabs (stream.slice 0 stream.size ++ if binary then crlf else []) := by
  obtain ⟨r, ran, holds⟩ := upload_holds sane binary short flags exptime stream fuel counts pull
  rw [uploaded] at ran
  cases ran
  exact (holds it rfl).1

/-- The default settings, with a few of the slab classes. -/
def fewClasses : Slabs := ⟨defaultSettings, [96, 120, 192, 524288]⟩

theorem fewClasses_sane : fewClasses.Sane :=
  ⟨rfl, by decide, by decide, by decide⟩

/-- The letter `a`, so many times, and a line end. -/
def letters (n : Nat) : Block UInt8 :=
  ⟨n + 2, fun i => if i < n then 97 else if i = n then 13 else 10⟩

/-! ## What `AES_CMAC` reads -/

/-- The byte at an offset of the slab chunk with the header, if it is one of the value. In the
header of a chain only the inner chunk could have some. -/
def Stored.valueByte (slabs : Slabs) (it : Stored) (off : Nat) : Exec UInt8 :=
  let (mem, start, count) : Block UInt8 × Nat × Nat :=
    match it.chunks with
    | some (schunk :: _) => (schunk.mem, schunk.data, schunk.used)
    | some [] => (it.mem, 0, 0)
    | none => (it.mem, it.itemData slabs, it.nbytes)
  if start ≤ off ∧ off < start + count then mem.get off else throw .invalidAccess

/-- The call of `AES_CMAC` in `complete_nread_ascii`, where only the bytes of the value may be
read. -/
def guardedMac (slabs : Slabs) (it : Stored) : Exec AesBlock :=
  aesCmac cmacKey (fun i => it.valueByte slabs (it.itemData slabs + i)) it.nbytes

/-- The first chunk of a chain. -/
def Cursor.first (c : Cursor) : DataChunk := c.front.headD c.dch

theorem Cursor.chunks_eq (c : Cursor) : ∃ rest, c.chunks = c.first :: rest := by
  rw [Cursor.chunks, Cursor.first]
  cases c.front with
  | nil => exact ⟨_, rfl⟩
  | cons ch front => exact ⟨_, rfl⟩

theorem first_with_dch (c : Cursor) {dch : DataChunk} (same : dch.data = c.dch.data) :
    (Cursor.first { c with dch }).data = c.first.data := by
  simp only [Cursor.first]
  cases c.front with
  | nil => exact same
  | cons ch front => rfl

theorem doItemAllocChunk_first {c c' : Cursor} {remain : Nat}
    (chained : doItemAllocChunk slabs c remain pull = (some c', pull')) : c'.first = c.first := by
  simp only [doItemAllocChunk] at chained
  split at chained
  · cases chained
  cases chained
  simp only [Cursor.first]
  cases c.front with
  | nil => rfl
  | cons ch front => rfl

theorem readIntoChunkedItem_first {binary : Bool} {stream : Block UInt8} {fuel rlbytes pos : Nat}
    {c c' : Cursor} {counts : List Nat}
    (ran : readIntoChunkedItem slabs binary stream fuel c rlbytes pos counts pull =
      .ok (some c', pull')) : c'.first.data = c.first.data := by
  fun_induction readIntoChunkedItem slabs binary stream fuel c rlbytes pos counts pull with
  | case1 => cases ran
  | case2 =>
    rw [doItemAllocChunk_first (Except.ok.inj ran)]
  | case3 =>
    cases ran
    rfl
  | case4 => cases ran
  | case5 fuel c rlbytes pos counts pull _ _ c₁ pull₁ chained ih =>
    rw [ih ran, doItemAllocChunk_first chained]
  | case6 => cases ran
  | case7 fuel c rlbytes pos pull _ _ count counts tocopy ih =>
    obtain ⟨mem, -, ran⟩ := Exec.bind_eq_ok.mp ran
    rw [ih mem ran]
    exact first_with_dch c rfl

section

variable {stream : Block UInt8} {fuel : Nat} {counts : List Nat}

theorem doItemAlloc_layout
    (allocated : doItemAlloc slabs key flags exptime nbytes pull = (some new, pull')) :
    new.key = key ∧ new.flags = flags ∧ new.nbytes = nbytes ∧ 0 < nbytes ∧
      new.chunks.isSome = isLarge slabs.settings key.length flags nbytes ∧
      ∀ schunk ∈ new.chunks.bind List.head?,
        schunk.data = new.itemData slabs + chunkDataOffset := by
  simp only [doItemAlloc] at allocated
  split at allocated
  · cases allocated
  rename_i accepted
  have positive : 0 < nbytes := by
    simp only [itemSizeOk, decide_eq_true_eq, not_not] at accepted
    omega
  split at allocated <;> rename_i large <;> split at allocated
  · cases allocated
  · cases allocated
    exact ⟨rfl, rfl, rfl, positive, large.symm, by simp [Stored.itemData]⟩
  · cases allocated
  · cases allocated
    exact ⟨rfl, rfl, rfl, positive, (Bool.not_eq_true _ ▸ large).symm, by simp⟩

/-- A small item has the value behind its header. -/
theorem upload_small (small : isLarge slabs.settings key.length flags stream.size = false)
    (uploaded : upload slabs false key flags exptime stream fuel counts pull = .ok (some it)) :
    it.chunks = none ∧ it.nbytes = stream.size ∧ it.itemData slabs + stream.size ≤ it.mem.size ∧
      it.mem.slice (it.itemData slabs) stream.size = stream.slice 0 stream.size := by
  simp only [upload] at uploaded
  split at uploaded
  · cases uploaded
  rename_i new pull' allocated
  obtain ⟨-, -, nbytes, -, plain, -⟩ := doItemAlloc_layout allocated
  have none : new.chunks = none := Option.isSome_eq_false_iff.mp (plain.trans small) |>
    Option.isNone_iff_eq_none.mp
  simp only [none] at uploaded
  obtain ⟨r, ran, uploaded⟩ := Exec.bind_eq_ok.mp uploaded
  cases r with
  | none => cases uploaded
  | some mem =>
    obtain ⟨mem', wrote, uploaded⟩ := Exec.bind_eq_ok.mp uploaded
    cases uploaded
    obtain ⟨copies, inside⟩ := Block.copies_of_memcpy wrote
    obtain ⟨-, shown⟩ := nreadFlat_shows (by rfl) ran
    rw [Nat.zero_add] at shown
    refine ⟨rfl, nbytes, ?_, ?_⟩
    · rw [copies.size]
      exact inside
    · exact copies.slice_append.trans (by rw [shown]; exact List.append_nil _)

theorem guardedMac_of_small (small : isLarge slabs.settings key.length flags stream.size = false)
    (uploaded : upload slabs false key flags exptime stream fuel counts pull = .ok (some it)) :
    guardedMac slabs it = .ok (cmacOf cmacKey (stream.slice 0 stream.size)) := by
  obtain ⟨plain, nbytes, inside, shown⟩ := upload_small small uploaded
  have length : it.nbytes = (stream.slice 0 stream.size).length := by
    rw [nbytes, Block.length_slice]
  rw [guardedMac, length]
  refine aesCmac_value cmacKey fun i lt => ?_
  rw [Block.length_slice] at lt
  have byte : it.mem.cell (it.itemData slabs + i) = (stream.slice 0 stream.size)[i] := by
    simpa [Block.slice, lt] using congrArg (·[i]?) shown
  simp only [Stored.valueByte, plain, nbytes]
  rw [if_pos (by omega), Block.get_of_lt (by omega), byte]

/-- The first byte that is read for a chain is in the header of its inner chunk. -/
theorem guardedMac_of_large (large : isLarge slabs.settings key.length flags stream.size = true)
    (uploaded : upload slabs false key flags exptime stream fuel counts pull = .ok (some it)) :
    ¬∃ code, guardedMac slabs it = .ok code := by
  simp only [upload] at uploaded
  split at uploaded
  · cases uploaded
  rename_i new pull' allocated
  obtain ⟨-, -, nbytes, positive, chained, first⟩ := doItemAlloc_layout allocated
  cases isChain : new.chunks with
  | none => cases (chained.trans large).symm.trans (congrArg Option.isSome isChain)
  | some chunks =>
    simp only [isChain] at uploaded first
    cases chunks with
    | nil => cases uploaded
    | cons schunk rest =>
      obtain ⟨⟨r, pull''⟩, ran, uploaded⟩ := Exec.bind_eq_ok.mp uploaded
      cases r with
      | none => cases uploaded
      | some c =>
        obtain ⟨mem, -, uploaded⟩ := Exec.bind_eq_ok.mp uploaded
        cases uploaded
        have same := readIntoChunkedItem_first ran
        let dch : DataChunk := { c.dch with mem, used := c.dch.used + (lineEnd false).size }
        have before : new.itemData slabs < (Cursor.first { c with dch }).data := by
          rw [first_with_dch c (show dch.data = c.dch.data from rfl), same]
          exact (first schunk rfl).symm ▸ Nat.lt_add_of_pos_right (by decide)
        obtain ⟨tail, chunks⟩ := Cursor.chunks_eq { c with dch }
        rw [guardedMac, aesCmac_ok_iff]
        intro readable
        obtain ⟨byte, read⟩ := readable 0 (nbytes ▸ positive)
        simp only [Stored.valueByte, dch, chunks] at read
        rw [if_neg fun inside => Nat.not_le.mpr before inside.1] at read
        cases read

end

/-- `AES_CMAC` reads only bytes of the value, and then returns its code, exactly
when the item fits into one slab chunk. -/
theorem guardedMac_ok_iff (slabs : Slabs) (key : Key) (flags exptime : Nat) (stream : Block UInt8)
    (fuel : Nat) (counts : List Nat) (pull : Pull) (it : Stored)
    (uploaded : upload slabs false key flags exptime stream fuel counts pull = .ok (some it)) :
    ((∃ code, guardedMac slabs it = .ok code) ↔
      itemTotal slabs.settings key.length flags stream.size ≤ slabs.settings.slabChunkSizeMax) ∧
    ∀ code, guardedMac slabs it = .ok code →
      code = cmacOf cmacKey (stream.slice 0 stream.size) := by
  have fits : isLarge slabs.settings key.length flags stream.size = false ↔
      itemTotal slabs.settings key.length flags stream.size ≤ slabs.settings.slabChunkSizeMax := by
    simp [isLarge]
  cases size : isLarge slabs.settings key.length flags stream.size with
  | false =>
    have code := guardedMac_of_small size uploaded
    refine ⟨⟨fun _ => fits.mp size, fun _ => ⟨_, code⟩⟩, fun code' ran => ?_⟩
    cases code.symm.trans ran
    rfl
  | true =>
    have unreadable := guardedMac_of_large size uploaded
    refine ⟨⟨fun readable => absurd readable unreadable, fun small => ?_⟩, fun code ran => ?_⟩
    · cases size.symm.trans (fits.mpr small)
    · exact absurd ⟨code, ran⟩ unreadable

/-- One letter, which arrives in two pieces. -/
theorem guardedMac_ok_iff_sample :
    ∃ it, upload fewClasses false [107] 0 0 (letters 1) 2 [2, 7] [some fun _ => 0] =
        .ok (some it) ∧ ∃ code, guardedMac fewClasses it = .ok code :=
  ⟨_, rfl, (guardedMac_ok_iff fewClasses [107] 0 0 (letters 1) 2 [2, 7] [some fun _ => 0] _
    rfl).1.mpr (by decide)⟩

/-- For a value of 600000 bytes, which is accepted and takes two chunks, `AES_CMAC` reads
something else. -/
theorem largeValue_unreadable :
    ∃ it, upload fewClasses false [107] 0 0 (letters 600000) 5 [700000, 700000]
        (List.replicate 3 (some fun _ => 0)) = .ok (some it) ∧
      ¬∃ code, guardedMac fewClasses it = .ok code := by
  have uploaded : upload fewClasses false [107] 0 0 (letters 600000) 5 [700000, 700000]
    (List.replicate 3 (some fun _ => 0)) = .ok (some _) := rfl
  exact ⟨_, uploaded, guardedMac_of_large (by decide) uploaded⟩

end Kvsev.Server.Concat
