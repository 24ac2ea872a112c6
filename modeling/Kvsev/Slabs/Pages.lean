import Kvsev.Memory.Block
import Kvsev.Placed.Boxes
import Kvsev.Transition.Run

/-!
# Pages and the classes that own them

Each slab class has a list of its pages, and class 0 is the pool of pages that nobody
uses. Workers ask for pages while the slab mover takes one from a class and gives it to
another. What runs under `slabs_lock` is one step. The start and the end of a move are
two of them, and pages may change hands in between.

Pages are numbered in the order in which the memory for them was allocated. The chunks of
a page do not matter here: a worker may ask for a page at any time, and when the mover has
emptied the page is an input.
-/

namespace Kvsev.Slabs

open Memory

abbrev Page := Nat

/-- The pages of a class, and the number of cells of its `slab_list`. -/
structure Owner where
  slabList : List Page
  listSize : Nat
  deriving DecidableEq, Repr

def Owner.slabs (p : Owner) : Nat := p.slabList.length

/-- `slab_rebalance_signal` -/
inductive Signal where
  | idle
  | requested
  | moving
  deriving DecidableEq, Repr

/-- `slab_rebal`, as far as the page itself is concerned. -/
structure Rebal where
  sClsid : Nat
  dClsid : Nat
  slabStart : Option Page
  done : Bool
  deriving DecidableEq, Repr

structure Settings where
  powerLargest : Nat
  memLimit : Nat
  slabPageSize : Nat
  /-- All memory was allocated at the start. -/
  prealloc : Bool

structure Pages where
  slabclass : Nat → Owner
  memMalloced : Nat
  /-- The number of pages that were ever allocated. -/
  allocated : Nat
  /-- Those that were given back to the system. -/
  released : List Page
  signal : Signal
  rebal : Rebal
  /-- The static variable of `slabs_reassign_pick_any`. -/
  cur : Nat

def powerSmallest : Nat := 1

/-- `SLAB_GLOBAL_PAGE_POOL` -/
def globalPagePool : Nat := 0

namespace Pages

def setClass (s : Pages) (id : Nat) (p : Owner) : Pages :=
  { s with slabclass := Function.update s.slabclass id p }

/-- `grow_slab_list`, where `realloc` may fail. -/
def growSlabList (s : Pages) (id : Nat) (realloc : Bool) : Option Pages :=
  let p := s.slabclass id
  if p.slabs = p.listSize then
    if realloc then
      some (s.setClass id { p with listSize := if p.listSize ≠ 0 then p.listSize * 2 else 16 })
    else none
  else some s

/-- `get_page_from_global_pool` -/
def getPageFromGlobalPool (s : Pages) : Option (Page × Pages) :=
  let p := s.slabclass globalPagePool
  p.slabList.getLast?.map fun page =>
    (page, s.setClass globalPagePool { p with slabList := p.slabList.dropLast })

/-- `memory_allocate`, where `malloc` may fail and the preallocated memory be used up. -/
def memoryAllocate (s : Pages) (len : Nat) (malloc : Bool) : Option (Page × Pages) :=
  if malloc then
    some (s.allocated,
      { s with allocated := s.allocated + 1, memMalloced := s.memMalloced + len })
  else none

/-- `p->slab_list[p->slabs++] = ptr` -/
def store (s : Pages) (id : Nat) (page : Page) : Exec Pages :=
  let p := s.slabclass id
  if p.slabs < p.listSize then .ok (s.setClass id { p with slabList := p.slabList ++ [page] })
  else .error .invalidAccess

/-- The memory limit forbids another page. -/
def limited (cfg : Settings) (s : Pages) (id : Nat) : Bool :=
  cfg.memLimit ≠ 0 ∧ cfg.memLimit < s.memMalloced + cfg.slabPageSize ∧
    0 < (s.slabclass id).slabs ∧ (s.slabclass globalPagePool).slabs = 0

/-- The part of `do_slabs_newslab` that gets a page for a list with a free cell. -/
def takePage (cfg : Settings) (s : Pages) (id : Nat) (malloc : Bool) : Exec Pages :=
  match s.getPageFromGlobalPool with
  | some (page, s) => s.store id page
  | none =>
    match s.memoryAllocate cfg.slabPageSize malloc with
    | some (page, s) => s.store id page
    | none => .ok s

/-- `do_slabs_newslab` -/
def doSlabsNewslab (cfg : Settings) (s : Pages) (id : Nat) (realloc malloc : Bool) :
    Exec Pages :=
  if limited cfg s id then .ok s
  else
    match s.growSlabList id realloc with
    | none => .ok s
    | some s => s.takePage cfg id malloc

/-- `cur++`, from the last class to the first. -/
def nextCur (cfg : Settings) (s : Pages) : Nat :=
  if cfg.powerLargest < s.cur + 1 then powerSmallest else s.cur + 1

/-- The loop of `slabs_reassign_pick_any`, with the number of tries that are left. -/
def reassignPickAny (cfg : Settings) (s : Pages) (dst : Int) : Nat → Pages × Int
  | 0 => (s, -1)
  | tries + 1 =>
    let s := { s with cur := s.nextCur cfg }
    if (s.cur : Int) = dst then s.reassignPickAny cfg dst tries
    else if 1 < (s.slabclass s.cur).slabs then (s, s.cur)
    else s.reassignPickAny cfg dst tries

/-- `enum reassign_result_type` -/
inductive ReassignResult where
  | ok
  | running
  | badclass
  | nospare
  | srcDstSame
  deriving DecidableEq, Repr

/-- `do_slabs_reassign` -/
def doSlabsReassign (cfg : Settings) (s : Pages) (src dst : Int) : ReassignResult × Pages :=
  if s.signal ≠ .idle then (.running, s)
  else if src = dst then (.srcDstSame, s)
  else
    let (s, src) := if src = -1 then
        s.reassignPickAny cfg dst (cfg.powerLargest - powerSmallest + 1)
      else (s, src)
    if src < 0 ∨ cfg.powerLargest < src ∨ dst < 0 ∨ cfg.powerLargest < dst then (.badclass, s)
    else if (s.slabclass src.toNat).slabs < 2 then (.nospare, s)
    else
      (.ok, { s with
        rebal := { s.rebal with sClsid := src.toNat, dClsid := dst.toNat }
        signal := .requested })

/-- `slab_rebalance_start`; if it refuses, the mover forgets the request. -/
def slabRebalanceStart (cfg : Settings) (s : Pages) (realloc : Bool) : Pages :=
  let grown := s.growSlabList s.rebal.dClsid realloc
  let valid := s.rebal.sClsid ≤ cfg.powerLargest ∧ s.rebal.dClsid ≤ cfg.powerLargest ∧
    s.rebal.sClsid ≠ s.rebal.dClsid
  let s := grown.getD s
  if ¬valid ∨ grown.isNone ∨ (s.slabclass s.rebal.sClsid).slabs < 2 then { s with signal := .idle }
  else
    { s with
      rebal := { s.rebal with
        slabStart := (s.slabclass s.rebal.sClsid).slabList.head?
        done := s.rebal.sClsid = globalPagePool }
      signal := .moving }

/-- The first half of `slab_rebalance_finish`: the first page of the source goes, and the
page that was emptied comes to the destination. -/
def shufflePages (s : Pages) : Exec Pages :=
  match (s.slabclass s.rebal.sClsid).slabList, s.rebal.slabStart with
  | _ :: rest, some page =>
    (s.setClass s.rebal.sClsid { s.slabclass s.rebal.sClsid with slabList := rest }).store
      s.rebal.dClsid page
  -- `slabs` wraps around, and the loop leaves the list.
  | _, _ => .error .invalidAccess

/-- The loop of `memory_release`, with a bound on its rounds. -/
def memoryReleaseLoop (cfg : Settings) : Nat → Pages → Pages
  | 0, s => s
  | rounds + 1, s =>
    if cfg.memLimit < s.memMalloced then
      match s.getPageFromGlobalPool with
      | none => s
      | some (page, s) =>
        memoryReleaseLoop cfg rounds
          { s with
            released := page :: s.released, memMalloced := s.memMalloced - cfg.slabPageSize }
    else s

/-- `memory_release` -/
def memoryRelease (cfg : Settings) (s : Pages) : Pages :=
  if cfg.prealloc then s else memoryReleaseLoop cfg (s.slabclass globalPagePool).slabs s

/-- `slab_rebalance_finish` -/
def slabRebalanceFinish (cfg : Settings) (s : Pages) : Exec Pages := do
  let s ← s.shufflePages
  let s := if s.rebal.dClsid = globalPagePool then s.memoryRelease cfg else s
  return { s with rebal := ⟨0, 0, none, false⟩, signal := .idle }

/-- What the threads do. -/
inductive Event where
  /-- A worker needs another page for a class. -/
  | newslab (id : Nat) (realloc malloc : Bool)
  /-- Somebody asks for a move. -/
  | reassign (src dst : Int)
  | start (realloc : Bool)
  /-- A call of `slab_rebalance_move`, with which the page may be clear. -/
  | move (clear : Bool)
  | finish
  deriving DecidableEq, Repr

def step (cfg : Settings) (s : Pages) : Event → Exec Pages
  | .newslab id realloc malloc =>
    -- `do_slabs_alloc` refuses other classes.
    if id < powerSmallest ∨ cfg.powerLargest < id then .ok s
    else s.doSlabsNewslab cfg id realloc malloc
  | .reassign src dst => .ok (s.doSlabsReassign cfg src dst).2
  | .start realloc => .ok (if s.signal = .requested then s.slabRebalanceStart cfg realloc else s)
  | .move clear =>
    .ok (if s.signal = .moving ∧ s.rebal.slabStart.isSome ∧ clear then
        { s with rebal := { s.rebal with done := true } }
      else s)
  | .finish => if s.rebal.done then s.slabRebalanceFinish cfg else .ok s

end Pages

end Kvsev.Slabs
