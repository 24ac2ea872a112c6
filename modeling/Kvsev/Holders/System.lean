import Kvsev.Server.References

/-!
# Threads that share items

Several workers serve connections while background threads work on the same items.
Whatever runs under an item lock is one step. Between two such steps a worker may
keep an item in its hands, and any number of steps of others may come in between.
Connections hold the items they upload and the items of their unsent responses; the
bump buffers hold those that were hit.

Two things `mg` does without the lock when its flags do not ask for it: it sets the
token mark, and it gives its reference back when an opaque token turns out to be too
long. Either is a read and a write of a shared field, and these are steps of their own.

The codes and the tree do not matter for references and are left out.
-/

namespace Kvsev.Holders

open Memory Server

/-- Commands that look an item up and let the lock go. -/
inductive Reader where
  /-- `get`, `gets`, `gat` and `gats`, for one of their keys. -/
  | get (returnCas : Bool)
  /-- `me` -/
  | debug
  /-- `mg` with flags that do not lock the item. -/
  | mget (flags : List MetaFlag)
  /-- The binary retrieval commands and the binary `touch`. -/
  | binary
  /-- `touch` -/
  | touch
  deriving DecidableEq, Repr

namespace Reader

/-- The command uses `limited_get`. -/
def limited : Reader → Bool
  | get _ | debug | mget _ => true
  | binary | touch => false

/-- The lookup counts as a hit. -/
def updates : Reader → Bool
  | get _ | binary | touch => true
  | mget flags => !flags.contains .noUpdate
  | debug => false

end Reader

/-- The bits of `it_flags` that matter here. -/
structure Bits where
  linked : Bool
  stale : Bool
  tokenSent : Bool
  deriving DecidableEq, Repr

def bitsOf (it : Item) : Bits := ⟨it.linked, it.stale, it.tokenSent⟩

/-- What a worker has in its hands between two critical sections. -/
inductive Pc where
  | idle
  /-- `item_get` or `item_touch` has returned `p`. -/
  | found (r : Reader) (p : ItemPtr)
  /-- The count was not too high, or nobody looked. -/
  | reading (r : Reader) (p : ItemPtr)
  /-- `mg` has won and is about to read `it_flags`. -/
  | marking (p : ItemPtr)
  /-- The new `it_flags` are about to be written. -/
  | setting (p : ItemPtr) (bits : Bits)
  /-- `item_remove` is next. -/
  | removing (p : ItemPtr)
  /-- An allocation has failed; the old item is looked up next. -/
  | clearing (key : Key)
  /-- `item_unlink` and `item_remove` are next. -/
  | unlinking (p : ItemPtr)
  /-- `mg` is about to read the count for a `do_item_remove` without the lock. -/
  | refusing (p : ItemPtr)
  /-- The new count is about to be written. -/
  | decrementing (p : ItemPtr) (count : Nat)
  deriving DecidableEq, Repr

/-- The item in the worker's hands. -/
def Pc.item : Pc → Option ItemPtr
  | idle | clearing _ => none
  | found _ p | reading _ p | marking p | setting p _ | removing p | unlinking p | refusing p
  | decrementing p _ => some p

inductive Protocol where
  | text
  | metaText
  | binary
  deriving DecidableEq, Repr

/-- A connection that reads a value into its `c->item`. -/
structure Upload where
  item : ItemPtr
  comm : Nread
  req : StoreRequest
  protocol : Protocol

/-- The shared state, the connections and the threads. The responses that are not
sent yet are those of the server state. -/
structure System where
  server : State
  uploads : List Upload
  code : List Pc
  /-- The entries of the bump buffers. -/
  bumps : List ItemPtr

namespace System

/-- An empty server with some idle workers. -/
def init (settings : Settings) (workers : Nat) : System where
  server := State.init settings
  uploads := []
  code := List.replicate workers .idle
  bumps := []

def moveTo (y : System) (w : Nat) (pc : Pc) : System := { y with code := y.code.set w pc }

/-- The worker is done, and the response refers to the item. -/
def respond (y : System) (w : Nat) (p : ItemPtr) : System :=
  { y.moveTo w .idle with server := { y.server with pending := y.server.pending ++ [p] } }

end System

/-! ## Commands -/

/-- `item_get` or `item_touch` of a command that goes on without the lock. -/
def lookup (y : System) (w : Nat) (r : Reader) (key : Key) (touch : Option Nat) (bump : Bump) :
    System :=
  match doItemGet y.server key false with
  | (none, server) => { y with server }
  | (some p, server) =>
    let (server, bumps) := doItemBump server y.bumps p (if r.updates then bump else .none)
    { y.moveTo w (.found r p) with server := setExptime server p touch, bumps }

/-- The end of an `mg` that holds the lock of the item it has found or made. -/
def mgetFound (y : System) (p : ItemPtr) (created : Bool) (flags : List MetaFlag)
    (input : MetaInput) (bump : Bump) : System :=
  if flags.any MetaFlag.tooLong then
    { y with server := (metaRefuse y.server p created flags input).2 }
  else
    let server := (metaHit y.server p created flags { input with bump := false }).2
    let (server, bumps) :=
      doItemBump server y.bumps p (if flags.contains .noUpdate then .none else bump)
    { y with server, bumps }

/-- `process_mget_command` under the item lock. -/
def mgetLocked (y : System) (key : Key) (flags : List MetaFlag) (input : MetaInput)
    (bump : Bump) : System :=
  match doItemGet y.server key false with
  | (some p, server) =>
    if itRefcountLimit < (server.heap p).refcount then { y with server := doItemRemove server p }
    else mgetFound { y with server } p false flags input bump
  | (none, server) =>
    if flags.any MetaFlag.vivifies then
      match doItemAlloc server key 0 0 2 input.alloc with
      | (some p, server) =>
        let server := doItemLink (server.modify p fun it => { it with data := [13, 10] }) p
        mgetFound { y with server } p true flags input bump
      | (none, server) => { y with server }
    else { y with server }

/-- `process_mget_command`. -/
def mget (y : System) (w : Nat) (key : Key) (flags : List MetaFlag) (input : MetaInput)
    (bump : Bump) : System :=
  if keyMaxLength < key.length ∨ flags = [] ∨ ¬(flags.map MetaFlag.letter).Nodup then y
  else if flags.any MetaFlag.locks then mgetLocked y key flags input bump
  else lookup y w (.mget flags) key none bump

/-- A storage command allocates its item. Where that fails, the old item is dropped:
by `ms` at once under the lock, and otherwise step by step and only for `set`. -/
def upload (y : System) (w : Nat) (protocol : Protocol) (comm : Nread) (req : StoreRequest) :
    System :=
  let req := if protocol = .binary then binaryRequest comm req else req
  let data := if protocol = .binary then req.data ++ [13, 10] else req.data
  if keyMaxLength < req.key.length ∨ intMax < data.length then y
  else
    match uploadItem y.server req data with
    | (some item, server) =>
      let comm := if protocol = .binary then binaryNread server comm req.cas else comm
      { y with server, uploads := y.uploads ++ [⟨item, comm, req, protocol⟩] }
    | (none, server) =>
      if protocol = .metaText then { y with server := dropOnFailedAlloc server req.key .set }
      else if comm = .set then { y.moveTo w (.clearing req.key) with server }
      else { y with server }

/-- What the beginning of an upload can do: nothing, a new item, or what an allocation that has
failed does to the item that is stored. -/
theorem upload_rule {P : System → Prop} {y : System} {w : Nat} {protocol : Protocol}
    {comm : Nread} {req : StoreRequest} (stay : P y)
    (made : ∀ {req data item s} (comm), uploadItem y.server req data = (some item, s) →
      P { y with server := s, uploads := y.uploads ++ [⟨item, comm, req, protocol⟩] })
    (drop : ∀ key, P { y with server := dropOnFailedAlloc y.server key .set })
    (clear : ∀ key, P (y.moveTo w (.clearing key))) : P (upload y w protocol comm req) := by
  simp only [upload]
  generalize (if protocol = .binary then binaryRequest comm req else req) = req
  generalize (if protocol = .binary then req.data ++ [13, 10] else req.data) = data
  split
  · exact stay
  rcases ran : uploadItem y.server req data with ⟨_ | item, s⟩
  · obtain rfl := uploadItem_none ran
    dsimp only
    split
    · exact drop req.key
    · split
      · exact clear req.key
      · exact stay
  · exact made _ ran

/-- The value of an upload is complete: `store_item`, and then `item_remove`. -/
def complete (y : System) (w i : Nat) : System :=
  match y.uploads[i]? with
  | none => y
  | some u =>
    let y := { y.moveTo w (.removing u.item) with uploads := y.uploads.eraseIdx i }
    if u.protocol ≠ .binary ∧ ¬endsLine (y.server.heap u.item).data then y
    else { y with server := (doStoreItem y.server u.item u.comm u.req.setStale u.req.copy).2 }

/-- `conn_release_items`, for the upload of a connection. -/
def abandon (y : System) (w i : Nat) : System :=
  match y.uploads[i]? with
  | none => y
  | some u => { y.moveTo w (.removing u.item) with uploads := y.uploads.eraseIdx i }

/-- The marks that `mg` prints and whether it wins, for an item it only reads. -/
def metaMarks (it : Item) : List MetaField × Bool :=
  let wins := it.stale && !it.tokenSent
  ((if it.tokenSent then [.tokenSent] else []) ++ (if it.stale then [.stale] else []) ++
    if wins then [.win] else [], wins)

/-- What a reader does with its item. -/
def read (y : System) (w : Nat) (r : Reader) (p : ItemPtr) : System :=
  match r with
  | .get _ | .binary => y.respond w p
  | .debug | .touch => y.moveTo w (.removing p)
  | .mget flags =>
    if flags.any MetaFlag.tooLong then y.moveTo w (.refusing p)
    else if (metaMarks (y.server.heap p)).2 then y.moveTo w (.marking p)
    else y.respond w p

/-- The write of `it_flags |= ITEM_TOKEN_SENT`, for the flags that were read. -/
def setTokenSent (s : State) (p : ItemPtr) (bits : Bits) : State :=
  s.modify p fun it => { it with linked := bits.linked, stale := bits.stale, tokenSent := true }

/-- The rest of a `do_item_remove` that has computed the new count. -/
def writeRefcount (s : State) (p : ItemPtr) (count : Nat) : State :=
  s.modify p fun it =>
    { it with refcount := count, freed := if count = 0 then it.freed + 1 else it.freed }

/-- The next step of a worker. -/
def advance (y : System) (w : Nat) : System :=
  match y.code[w]? with
  | none | some .idle => y
  | some (.found r p) =>
    if r.limited ∧ itRefcountLimit < (y.server.heap p).refcount then y.moveTo w (.removing p)
    else y.moveTo w (.reading r p)
  | some (.reading r p) => read y w r p
  | some (.marking p) => y.moveTo w (.setting p (bitsOf (y.server.heap p)))
  | some (.setting p bits) => { y with server := setTokenSent y.server p bits }.respond w p
  | some (.removing p) => { y.moveTo w .idle with server := doItemRemove y.server p }
  | some (.clearing key) =>
    match doItemGet y.server key false with
    | (none, server) => { y.moveTo w .idle with server }
    | (some p, server) => { y.moveTo w (.unlinking p) with server }
  | some (.unlinking p) => { y.moveTo w (.removing p) with server := doItemUnlink y.server p }
  | some (.refusing p) => y.moveTo w (.decrementing p ((y.server.heap p).refcount - 1))
  | some (.decrementing p count) =>
    { y.moveTo w .idle with server := writeRefcount y.server p count }

/-- `resp_finish`, for the response with this place among all. -/
def respFinish (y : System) (i : Nat) : System :=
  match y.server.pending[i]? with
  | none => y
  | some p =>
    { y with server := doItemRemove { y.server with pending := y.server.pending.eraseIdx i } p }

/-- The LRU maintainer works off an entry of a bump buffer. -/
def bumped (y : System) (i : Nat) : System :=
  match y.bumps[i]? with
  | none => y
  | some p => { y with server := lruMaintainerBump y.server p, bumps := y.bumps.eraseIdx i }

/-! ## Steps -/

/-- Commands that run under the item lock from their beginning to their end. -/
inductive Atomic where
  | delete (key : Key)
  | binDelete (key : Key) (cas : Nat)
  | mdelete (key : Key) (flags : MdeleteFlags)
  | arithmetic (req : DeltaRequest)
  | marithmetic (req : DeltaRequest) (vivify : Option Vivify)

def Atomic.run (s : State) : Atomic → State
  | delete key => (processDeleteCommand s key).2
  | binDelete key cas => processBinDelete s key cas
  | mdelete key flags => processMdeleteCommand s key flags
  | arithmetic req => (doAddDelta s req).2
  | marithmetic req vivify => processMarithmeticCommand s req vivify

/-- What a background thread or the clock does. -/
inductive Chore where
  | tick
  | flushAll (newOldest : Nat)
  | pullTail (p : ItemPtr) (evict : Bool)
  | crawl (p : ItemPtr) (kind : CrawlerModule)
  | crawlHash (p : ItemPtr)

def Chore.run (s : State) : Chore → State
  | tick => { s with currentTime := s.currentTime + 1 }
  | flushAll newOldest => Server.flushAll s newOldest
  | pullTail p evict => lruPullTail s p evict
  | crawl p kind => itemCrawler s p kind
  | crawlHash p => itemCrawlHash s p

/-- What can happen next. -/
inductive Event where
  | lookup (w : Nat) (r : Reader) (key : Key) (touch : Option Nat) (bump : Bump)
  | mget (w : Nat) (key : Key) (flags : List MetaFlag) (input : MetaInput) (bump : Bump)
  | upload (w : Nat) (protocol : Protocol) (comm : Nread) (req : StoreRequest)
  | complete (w i : Nat)
  | abandon (w i : Nat)
  | command (w : Nat) (command : Atomic)
  /-- The worker goes on with what it has begun. -/
  | advance (w : Nat)
  /-- A response was sent, or its connection was closed. -/
  | respFinish (i : Nat)
  | bumped (i : Nat)
  | chore (chore : Chore)

/-- A worker begins something only when it is idle. -/
def starting (y : System) (w : Nat) (next : System) : System :=
  match y.code[w]? with
  | some .idle => next
  | _ => y

/-- One step of the system. -/
def step (y : System) : Event → Exec System
  | .lookup w r key touch bump =>
    match r with
    -- `mg` has an event of its own.
    | .mget _ => .ok y
    | r => .ok (starting y w (if keyMaxLength < key.length then y else lookup y w r key touch bump))
  | .mget w key flags input bump => .ok (starting y w (mget y w key flags input bump))
  | .upload w protocol comm req => .ok (starting y w (upload y w protocol comm req))
  | .complete w i => .ok (starting y w (complete y w i))
  | .abandon w i => .ok (starting y w (abandon y w i))
  | .command w command => .ok (starting y w { y with server := command.run y.server })
  | .advance w => .ok (advance y w)
  | .respFinish i => .ok (respFinish y i)
  | .bumped i => .ok (bumped y i)
  | .chore chore => .ok { y with server := chore.run y.server }

/-- What a step can do. -/
inductive Next (y : System) : Event → System → Prop
  /-- A worker that is not idle begins nothing. -/
  | stay (e : Event) : Next y e y
  | lookup {w : Nat} (idle : y.code[w]? = some .idle) (r : Reader) (key : Key)
    (touch : Option Nat) (bump : Bump) :
    Next y (.lookup w r key touch bump) (lookup y w r key touch bump)
  | mget {w : Nat} (idle : y.code[w]? = some .idle) (key : Key) (flags : List MetaFlag)
    (input : MetaInput) (bump : Bump) :
    Next y (.mget w key flags input bump) (mget y w key flags input bump)
  | upload {w : Nat} (idle : y.code[w]? = some .idle) (protocol : Protocol) (comm : Nread)
    (req : StoreRequest) : Next y (.upload w protocol comm req) (upload y w protocol comm req)
  | complete {w : Nat} (idle : y.code[w]? = some .idle) (i : Nat) :
    Next y (.complete w i) (complete y w i)
  | abandon {w : Nat} (idle : y.code[w]? = some .idle) (i : Nat) :
    Next y (.abandon w i) (abandon y w i)
  | command (w : Nat) (command : Atomic) :
    Next y (.command w command) { y with server := command.run y.server }
  | advance (w : Nat) : Next y (.advance w) (advance y w)
  | respFinish (i : Nat) : Next y (.respFinish i) (respFinish y i)
  | bumped (i : Nat) : Next y (.bumped i) (bumped y i)
  | chore (chore : Chore) : Next y (.chore chore) { y with server := chore.run y.server }

theorem next_starting {y next : System} {w : Nat} {e : Event}
    (begun : y.code[w]? = some .idle → Next y e next) : Next y e (starting y w next) := by
  unfold starting
  split
  · rename_i idle
    exact begun idle
  · exact .stay e

theorem next_of_step {y y' : System} {e : Event} (ran : step y e = .ok y') : Next y e y' := by
  cases e with
  | lookup w r key touch bump =>
    cases r with
    | mget flags =>
      cases ran
      exact .stay _
    | _ =>
      cases ran
      refine next_starting fun idle => ?_
      split
      · exact .stay _
      · exact .lookup idle _ key touch bump
  | mget w key flags input bump =>
    cases ran
    exact next_starting fun idle => .mget idle key flags input bump
  | upload w protocol comm req =>
    cases ran
    exact next_starting fun idle => .upload idle protocol comm req
  | complete w i =>
    cases ran
    exact next_starting fun idle => .complete idle i
  | abandon w i =>
    cases ran
    exact next_starting fun idle => .abandon idle i
  | command w command =>
    cases ran
    exact next_starting fun _ => .command w command
  | _ =>
    cases ran
    constructor

/-! ## Accesses within a locked section -/

/-- The next step of the worker reads or writes shared fields of its item without the lock. -/
def Pc.unlocked : Pc → Bool
  | reading (.mget _) _ | marking _ | setting _ _ | refusing _ | decrementing _ _ => true
  | _ => false

/-- What can happen at one time: a step that nothing comes into, or one into which an access
without the lock falls. The fields are not atomic, and either access may be lost. What the
state is afterwards is left open. -/
inductive Moment where
  | alone (e : Event)
  | overlap (e : Event) (after : System)

namespace Moment

def event : Moment → Event
  | alone e | overlap e _ => e

def step (y : System) : Moment → Exec System
  | alone e => Holders.step y e
  | overlap e after => if y.code.any Pc.unlocked then .ok after else Holders.step y e

/-- No access without the lock falls into a section under the lock. -/
def Apart (ms : List Moment) : Prop := ∀ m ∈ ms, ∃ e, m = alone e

theorem apart_map (es : List Event) : Apart (es.map alone) := by
  intro m mem
  obtain ⟨e, -, rfl⟩ := List.mem_map.mp mem
  exact ⟨e, rfl⟩

theorem Apart.exists_events {ms : List Moment} (apart : Apart ms) :
    ∃ es, List.map alone es = ms := by
  refine ⟨ms.map event, ?_⟩
  rw [List.map_map]
  refine (List.map_congr_left fun m mem => ?_).trans (List.map_id ms)
  obtain ⟨e, rfl⟩ := apart m mem
  rfl

end Moment

end Kvsev.Holders
