import Kvsev.Server.ReadPaths

/-!
# Hits, background threads and the remaining commands

A hit may leave an entry for its item in a bump buffer, which the LRU maintainer
works off later. The maintainer and the workers pull items from the tails of the LRU
lists, and the crawler visits the items of a list or of the hash table. All of them
take a reference first and act under the item lock. The lists themselves are not
modelled: which item is visited is an input.

Below are also the commands that delete items or do arithmetic in the meta and the
binary protocol; each of them runs under the item lock from its beginning to its end.
-/

namespace Kvsev.Server

/-- `refcount_decr` -/
def refcountDecr (s : State) (p : ItemPtr) : State :=
  s.modify p fun it => { it with refcount := it.refcount - 1 }

/-! ## Bumps -/

/-- What `do_item_bump` does, which depends on the LRU list of the item and its
earlier hits. -/
inductive Bump where
  /-- Only hit marks are set, if anything. -/
  | none
  /-- The item's time is moved. -/
  | time
  /-- `lru_bump_async` finds room for an entry. -/
  | queued
  /-- The bump buffer is full. -/
  | dropped
  deriving DecidableEq, Repr

/-- `lru_bump_async`; `bumps` are the entries of all bump buffers. -/
def lruBumpAsync (s : State) (bumps : List ItemPtr) (p : ItemPtr) (room : Bool) :
    State × List ItemPtr :=
  let s := refcountIncr s p
  if room then (s, bumps ++ [p]) else (refcountDecr s p, bumps)

/-- `do_item_bump` -/
def doItemBump (s : State) (bumps : List ItemPtr) (p : ItemPtr) : Bump → State × List ItemPtr
  | .none => (s, bumps)
  | .time => (s.modify p fun it => { it with time := s.currentTime }, bumps)
  | .queued => lruBumpAsync s bumps p true
  | .dropped => lruBumpAsync s bumps p false

/-- One entry in the loop of `lru_maintainer_bumps`. -/
def lruMaintainerBump (s : State) (p : ItemPtr) : State := doItemRemove (doItemUpdate s p) p

/-! ## The tails of the LRU lists and the crawler -/

/-- Whether the item is reclaimed by whoever comes across it. Lookups are stricter by
one second. -/
def isReclaimed (s : State) (it : Item) : Bool :=
  (it.exptime ≠ 0 ∧ it.exptime < s.currentTime) ∨ itemIsFlushed s it

/-- One round of `lru_pull_tail`, for the linked item `p`, whose lock was free. An
item that is not reclaimed is evicted, moved to another list or left alone. -/
def lruPullTail (s : State) (p : ItemPtr) (evict : Bool) : State :=
  if (s.heap p).linked then
    let it := s.heap p
    let s := refcountIncr s p
    if isReclaimed s it || evict then doItemRemove (doItemUnlink s p) p else doItemRemove s p
  else s

/-- The modules of the crawler. -/
inductive CrawlerModule where
  | expired
  | metadump
  deriving DecidableEq, Repr

/-- `crawler_expired_eval` or `crawler_metadump_eval`; either gives the reference
back. -/
def crawlerEval (s : State) (p : ItemPtr) : CrawlerModule → State
  | .expired =>
    if isReclaimed s (s.heap p) then doItemRemove (doItemUnlink s p) p else refcountDecr s p
  | .metadump => refcountDecr s p

/-- A visit of `item_crawler_thread` to the linked item `p`, whose lock was free. -/
def itemCrawler (s : State) (p : ItemPtr) (kind : CrawlerModule) : State :=
  if (s.heap p).linked then
    let s := refcountIncr s p
    if (s.heap p).refcount ≠ 2 then refcountDecr s p else crawlerEval s p kind
  else s

/-- A visit of `item_crawl_hash`, which only dumps, to the linked item `p`. -/
def itemCrawlHash (s : State) (p : ItemPtr) : State :=
  if (s.heap p).linked then
    let s := refcountIncr s p
    if (s.heap p).refcount < 2 then refcountDecr s p else crawlerEval s p .metadump
  else s

/-! ## Commands under the item lock -/

/-- `process_bin_delete` -/
def processBinDelete (s : State) (key : Key) (cas : Nat) : State :=
  match doItemGet s key false with
  | (none, s) => s
  | (some p, s) =>
    let s := if cas = 0 ∨ cas = itemGetCas s (s.heap p) then doItemUnlink s p else s
    doItemRemove s p

namespace Sheds

theorem refcountDecr (s : State) (p : ItemPtr) : Sheds s (refcountDecr s p) :=
  .single (.count p _ _ _)

theorem lruPullTail (s : State) (p : ItemPtr) (evict : Bool) : Sheds s (lruPullTail s p evict) := by
  unfold Server.lruPullTail
  split
  · refine (refcountIncr s p).trans ?_
    dsimp only
    split
    · exact drop _ p
    · exact doItemRemove _ p
  · exact .refl

theorem crawlerEval (s : State) (p : ItemPtr) (kind : CrawlerModule) :
    Sheds s (crawlerEval s p kind) := by
  cases kind with
  | metadump => exact refcountDecr s p
  | expired =>
    simp only [Server.crawlerEval]
    split
    · exact drop s p
    · exact refcountDecr s p

theorem itemCrawler (s : State) (p : ItemPtr) (kind : CrawlerModule) :
    Sheds s (itemCrawler s p kind) := by
  unfold Server.itemCrawler
  split
  · refine (refcountIncr s p).trans ?_
    dsimp only
    split
    · exact refcountDecr _ p
    · exact crawlerEval _ p kind
  · exact .refl

theorem itemCrawlHash (s : State) (p : ItemPtr) : Sheds s (itemCrawlHash s p) := by
  unfold Server.itemCrawlHash
  split
  · refine (refcountIncr s p).trans ?_
    dsimp only
    split
    · exact refcountDecr _ p
    · exact crawlerEval _ p .metadump
  · exact .refl

theorem processBinDelete (s : State) (key : Key) (cas : Nat) :
    Sheds s (processBinDelete s key cas) := by
  unfold Server.processBinDelete
  rcases ran : Server.doItemGet s key false with ⟨_ | p, s₁⟩
  · exact doItemGet ran
  · refine (doItemGet ran).trans ?_
    dsimp only
    split
    · exact drop s₁ p
    · exact doItemRemove s₁ p

end Sheds

/-- The flags of `md` that matter for the item. -/
structure MdeleteFlags where
  hasCas : Bool
  setStale : Bool
  newTtl : Option Nat
  deriving DecidableEq, Repr

/-- The part of `process_mdelete_command` that marks an item as stale. -/
def markStale (s : State) (p : ItemPtr) (newTtl : Option Nat) : State :=
  let casId := if s.settings.useCas then u64 (s.casId + 1) else s.casId
  let s₁ := (setExptime s p newTtl).modify p fun it =>
    itemSetCas s { it with stale := true, tokenSent := false } casId
  { s₁ with casId }

/-- `process_mdelete_command`, once the flags are read. The unique is compared with a
variable that stays zero, not with the one of the request. -/
def processMdeleteCommand (s : State) (key : Key) (flags : MdeleteFlags) : State :=
  match doItemGet s key false with
  | (none, s) => s
  | (some p, s) =>
    if flags.hasCas ∧ itemGetCas s (s.heap p) ≠ 0 then doItemRemove s p
    else if flags.setStale then doItemRemove (markStale s p flags.newTtl) p
    else doItemRemove (doItemUnlink s p) p

/-- An initial value for `ma`, with what its item needs from outside. -/
structure Vivify where
  text : List UInt8
  alloc : ItemAlloc
  copy : CopyInput

/-- `process_marithmetic_command`, once the flags are read; new expiry times are left
out. -/
def processMarithmeticCommand (s : State) (req : DeltaRequest) (vivify : Option Vivify) : State :=
  match doAddDelta s req, vivify with
  | (.itemNotFound, s), some initial =>
    match doItemAlloc s req.key 0 0 (initial.text.length + 2) initial.alloc with
    | (none, s) => s
    | (some p, s) =>
      let s := s.modify p fun it => { it with data := initial.text ++ [13, 10] }
      doItemRemove (doStoreItem s p .add false initial.copy).2 p
  | (_, s), _ => s

end Kvsev.Server
