import Kvsev.Merkle.Impl

/-!
# Items and the server state

An item is the header of `struct _stritem` together with its value. The links
of the LRU lists and of the hash chain are left out: the table is a finite map
from keys to items, and recency only matters where it decides what is evicted,
which is an input of the model. The value is one list of bytes, also when it is
spread over a chain of chunks.

Memory is handed out with whatever the previous owner left in it. An allocation
therefore comes with leftover bytes, and its pointer is fresh; a freed item is
never looked at again.
-/

namespace Kvsev.Server

open Merkle

abbrev Key := List UInt8

abbrev ItemPtr := Nat

/-- The value a `uint64_t` object holds after storing `n` in it. -/
def u64 (n : Nat) : Nat := n % 2 ^ 64

theorem u64_of_lt {n : Nat} (h : n < 2 ^ 64) : u64 n = n := Nat.mod_eq_of_lt h

/-- `item` -/
structure Item where
  key : Key
  time : Nat
  exptime : Nat
  refcount : Nat
  /-- `ITEM_LINKED` -/
  linked : Bool
  /-- `ITEM_CHUNKED` -/
  chunked : Bool
  /-- `ITEM_STALE` -/
  stale : Bool
  /-- `ITEM_TOKEN_SENT` -/
  tokenSent : Bool
  /-- The client flags of the suffix. -/
  flags : Nat
  cas : Nat
  /-- The `nbytes` bytes of the value, its line end included. -/
  data : List UInt8
  mac : Vector UInt8 32
  mtIndex : Nat
  /-- How often `item_free` was called for it. -/
  freed : Nat := 0
  /-- The largest value an increment gave to `refcount`, which has 16 bits in the
  source. -/
  peak : Nat := 0

def Item.nbytes (it : Item) : Nat := it.data.length

/-- The settings that the modelled functions read. -/
structure Settings where
  useCas : Bool
  itemSizeMax : Nat
  slabChunkSizeMax : Nat
  deriving DecidableEq, Repr

/-- What `settings_init` and the defaults of `main` leave. -/
def defaultSettings : Settings where
  useCas := true
  itemSizeMax := 1024 * 1024
  slabChunkSizeMax := 1024 * 1024 / 2

/-- The memory of a new item before anything is written to it. -/
structure Leftover where
  mac : Vector UInt8 32
  mtIndex : Nat
  bytes : Nat → UInt8

/-- The outcome of a slab allocation. -/
abbrev ItemAlloc := Option Leftover

/-- The state the request handlers share. -/
structure State where
  settings : Settings
  heap : ItemPtr → Item
  /-- Pointers from here on have never been handed out. -/
  next : ItemPtr
  /-- The hash table. -/
  assoc : Key → Option ItemPtr
  /-- `stats.total_items` -/
  totalItems : Nat
  casId : Nat
  currentTime : Nat
  oldestLive : Nat
  oldestCas : Nat
  merkle : Mt
  /-- Items referenced by responses that are not sent yet. -/
  pending : List ItemPtr

/-- The item behind pointers that were never handed out. -/
def noItem : Item where
  key := []
  time := 0
  exptime := 0
  refcount := 0
  linked := false
  chunked := false
  stale := false
  tokenSent := false
  flags := 0
  cas := 0
  data := []
  mac := Vector.replicate 32 0
  mtIndex := 0

/-- An empty server. -/
def State.init (settings : Settings) : State where
  settings := settings
  heap := fun _ => noItem
  next := 0
  assoc := fun _ => none
  totalItems := 0
  casId := 0
  currentTime := 62
  oldestLive := 0
  oldestCas := 0
  merkle := mtCreate
  pending := []

namespace State

/-- Change the item behind one pointer. -/
def modify (s : State) (p : ItemPtr) (f : Item → Item) : State :=
  { s with heap := Function.update s.heap p (f (s.heap p)) }

@[simp] theorem modify_heap_self (s : State) (p : ItemPtr) (f : Item → Item) :
    (s.modify p f).heap p = f (s.heap p) := by
  simp [modify]

theorem modify_heap_of_ne {s : State} {p q : ItemPtr} (f : Item → Item) (ne : q ≠ p) :
    (s.modify p f).heap q = s.heap q := by
  simp [modify, ne]

@[simp] theorem modify_settings (s : State) (p : ItemPtr) (f : Item → Item) :
    (s.modify p f).settings = s.settings := rfl

@[simp] theorem modify_next (s : State) (p : ItemPtr) (f : Item → Item) :
    (s.modify p f).next = s.next := rfl

@[simp] theorem modify_assoc (s : State) (p : ItemPtr) (f : Item → Item) :
    (s.modify p f).assoc = s.assoc := rfl

@[simp] theorem modify_totalItems (s : State) (p : ItemPtr) (f : Item → Item) :
    (s.modify p f).totalItems = s.totalItems := rfl

@[simp] theorem modify_merkle (s : State) (p : ItemPtr) (f : Item → Item) :
    (s.modify p f).merkle = s.merkle := rfl

end State

/-! ## Times -/

/-- `REALTIME_MAXDELTA` -/
def realtimeMaxdelta : Nat := 60 * 60 * 24 * 30

/-- `EXPTIME_TO_POSITIVE_TIME` -/
def exptimeToPositiveTime (exptime : Int) : Nat :=
  if exptime < 0 then realtimeMaxdelta + 1 else exptime.toNat

/-- `realtime`, for a process that was started at the given time. -/
def realtime (started now exptime : Nat) : Nat :=
  if exptime = 0 then 0
  else if realtimeMaxdelta < exptime then if exptime ≤ started then 1 else exptime - started
  else exptime + now

/-! ## Sizes -/

/-- `sizeof(item)` -/
def sizeofItem : Nat := 80

/-- `sizeof(item_chunk)` -/
def sizeofItemChunk : Nat := 48

/-- The length of the suffix that `item_make_header` prepares. -/
def suffixLength (flags : Nat) : Nat := if flags = 0 then 0 else 4

/-- `item_make_header` -/
def itemMakeHeader (nkey flags nbytes : Nat) : Nat :=
  sizeofItem + nkey + suffixLength flags + nbytes

/-- The total size that `do_item_alloc` and `item_size_ok` compute. -/
def itemTotal (settings : Settings) (nkey flags nbytes : Nat) : Nat :=
  itemMakeHeader (nkey + 1) flags nbytes + if settings.useCas then 8 else 0

/-- Whether `slabs_clsid` finds a class for the size. -/
def slabsFits (settings : Settings) (size : Nat) : Bool :=
  size ≠ 0 ∧ size ≤ settings.itemSizeMax

/-- `item_size_ok` -/
def itemSizeOk (settings : Settings) (nkey flags nbytes : Nat) : Bool :=
  2 ≤ nbytes ∧ slabsFits settings (itemTotal settings nkey flags nbytes)

/-- Whether `do_item_alloc` allocates only a header and a chain of chunks. -/
def isLarge (settings : Settings) (nkey flags nbytes : Nat) : Bool :=
  settings.slabChunkSizeMax < itemTotal settings nkey flags nbytes

end Kvsev.Server
