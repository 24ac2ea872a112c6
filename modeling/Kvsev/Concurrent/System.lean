import Kvsev.Server.Operations

/-!
# Workers

The handlers of several connections run at the same time. Between two steps of
one of them the others may take any number of steps. `store_item` and the lookup
of a `get` run under the item lock and are one step each; the appending of a leaf
and the assignment of its index are separate steps under the mutex of the tree,
and a handler that finds the mutex taken waits. Deletions, evictions and the clock
are steps of their own.

The system also keeps a record of which fields of an item its handler has
written, and what a `get` found written when it looked the item up. Nothing reads
these records.
-/

namespace Kvsev.Concurrent

open Memory Server Transition

/-- How far a handler is in `complete_nread_ascii` or `process_get_command`. -/
inductive Pc where
  | idle
  /-- The data block is in the item `p`. -/
  | uploaded (p : ItemPtr) (comm : Nread) (req : StoreRequest)
  /-- `store_item` has returned. -/
  | stored (p : ItemPtr) (req : StoreRequest)
  /-- `AES_CMAC` has returned. -/
  | maced (p : ItemPtr) (req : StoreRequest)
  /-- The mutex is held. -/
  | locked (p : ItemPtr) (req : StoreRequest)
  /-- `mt_add` has returned. -/
  | added (p : ItemPtr)
  /-- `mt_index` is set. -/
  | indexed (p : ItemPtr)
  /-- The mutex is given back. -/
  | unlocked (p : ItemPtr)
  /-- `limited_get` has found `p`. -/
  | found (p : ItemPtr)
  /-- The mutex is held for a `get`. -/
  | verifying (p : ItemPtr)
  /-- `mt_verify` has returned. -/
  | verified (p : ItemPtr)

/-- The handler has no command. -/
def Pc.isIdle : Pc → Bool
  | idle => true
  | _ => false

theorem Pc.eq_idle_of_isIdle {c : Pc} (idle : c.isIdle = true) : c = .idle := by
  cases c <;> first | rfl | cases idle

/-- What the handler of a storage command has done for its item. -/
structure Marks where
  mac : Bool
  leaf : Bool
  index : Bool
  deriving DecidableEq, Repr

/-- Nothing is done. -/
def Marks.none : Marks := ⟨false, false, false⟩

/-- Everything is done. -/
def Marks.all : Marks := ⟨true, true, true⟩

/-- The shared state and the handlers. -/
structure System where
  server : State
  pc : Nat → Pc
  mutex : Option Nat
  marks : ItemPtr → Marks
  seen : List Marks

namespace System

/-- An empty server without connections. -/
def init (settings : Settings) : System where
  server := State.init settings
  pc := fun _ => .idle
  mutex := none
  marks := fun _ => Marks.none
  seen := []

def moveTo (y : System) (w : Nat) (pc : Pc) : System :=
  { y with pc := Function.update y.pc w pc }

def mark (y : System) (p : ItemPtr) (marks : Marks) : System :=
  { y with marks := Function.update y.marks p marks }

end System

/-- What another thread does in one critical section. -/
inductive Chore where
  | delete (key : Key)
  | flushAll (newOldest : Nat)
  | tick
  | evict (p : ItemPtr)
  | responseSent

def Chore.run (s : State) : Chore → State
  | delete key => (processDeleteCommand s key).2
  | flushAll newOldest => Server.flushAll s newOldest
  | tick => { s with currentTime := s.currentTime + 1 }
  | evict p => doItemUnlink s p
  | responseSent => Server.responseSent s

/-- What can happen next. -/
inductive Event where
  /-- A storage command and its data block arrive. -/
  | upload (w : Nat) (comm : Nread) (req : StoreRequest)
  /-- A `get` arrives and its lookup is made. -/
  | get (w : Nat) (key : Key) (touch : Option Nat) (bump : Bool)
  /-- A handler takes its next step, or waits for the mutex. -/
  | advance (w : Nat)
  | chore (w : Nat) (chore : Chore)

/-- The handler that the event belongs to. -/
def Event.worker : Event → Nat
  | upload w _ _ | get w _ _ _ | advance w | chore w _ => w

/-- `process_update_command` for a handler without work. -/
def upload (y : System) (w : Nat) (comm : Nread) (req : StoreRequest) : System :=
  if keyMaxLength < req.key.length ∨ intMax < req.data.length then y
  else
    match uploadItem y.server req req.data with
    | (some p, server) => { y.moveTo w (.uploaded p comm req) with server }
    | (none, server) => { y with server := dropOnFailedAlloc server req.key comm }

/-- The lookup of `process_get_command` for a handler without work. -/
def lookup (y : System) (w : Nat) (key : Key) (touch : Option Nat) (bump : Bool) : System :=
  if keyMaxLength < key.length then y
  else
    match limitedGet y.server key touch bump with
    | (some p, server) => { y.moveTo w (.found p) with server, seen := y.seen ++ [y.marks p] }
    | (none, server) => { y with server }

/-- `store_item`, or the end of a command whose data block is bad. -/
def store (y : System) (w : Nat) (p : ItemPtr) (comm : Nread) (req : StoreRequest) : System :=
  if endsLine (y.server.heap p).data then
    { y.moveTo w (.stored p req) with
      server := (doStoreItem y.server p comm req.setStale req.copy).2 }
  else { y.moveTo w .idle with server := doItemRemove y.server p }

/-- Take the mutex if it is free. -/
def lock (y : System) (w : Nat) (next : Pc) : System :=
  if y.mutex = none then { y.moveTo w next with mutex := some w } else y

/-- The next step of a handler. -/
def advance (y : System) (w : Nat) : Exec System :=
  match y.pc w with
  | .idle => .ok y
  | .uploaded p comm req => .ok (store y w p comm req)
  | .stored p req => do
    let server ← macStep y.server p req.flat
    return { (y.moveTo w (.maced p req)).mark p { y.marks p with mac := true } with server }
  | .maced p req => .ok (lock y w (.locked p req))
  | .locked p req => do
    let (r, server) ← treeStep y.server p req.treeAllocs
    return { (y.moveTo w (.added p)).mark p { y.marks p with leaf := r = .success } with server }
  | .added p =>
    .ok { (y.moveTo w (.indexed p)).mark p { y.marks p with index := true } with
      server := indexStep y.server p }
  | .indexed p => .ok { y.moveTo w (.unlocked p) with mutex := none }
  | .unlocked p => .ok { y.moveTo w .idle with server := doItemRemove y.server p }
  | .found p => .ok (lock y w (.verifying p))
  | .verifying p => do
    let _ ← verifyItem y.server p
    return y.moveTo w (.verified p)
  | .verified p =>
    .ok { y.moveTo w .idle with
      mutex := none, server := { y.server with pending := y.server.pending ++ [p] } }

/-- One step of the system. A connection sends its next command when the last one
is finished. -/
def step (y : System) : Event → Exec System
  | .upload w comm req =>
    match y.pc w with
    | .idle => .ok (upload y w comm req)
    | _ => .ok y
  | .get w key touch bump =>
    match y.pc w with
    | .idle => .ok (lookup y w key touch bump)
    | _ => .ok y
  | .advance w => advance y w
  | .chore w chore =>
    match y.pc w with
    | .idle => .ok { y with server := chore.run y.server }
    | _ => .ok y

/-! ## Handlers that are not interrupted -/

/-- A storage command whose steps follow each other. -/
def updateEvents (w : Nat) (comm : Nread) (req : StoreRequest) : List Event :=
  .upload w comm req :: List.replicate 7 (.advance w)

/-- A retrieval whose steps follow each other. -/
def getEvents (w : Nat) (key : Key) (touch : Option Nat) (bump : Bool) : List Event :=
  .get w key touch bump :: List.replicate 3 (.advance w)

/-- A turn of one handler, from an arriving command to its end. -/
inductive Turn where
  | update (comm : Nread) (req : StoreRequest)
  | get (key : Key) (req : GetRequest)
  | chore (c : Chore)

/-- The steps of a turn that nothing interrupts. -/
def Turn.events (w : Nat) : Turn → List Event
  | update comm req => updateEvents w comm req
  | get key req => getEvents w key req.touch req.bump
  | chore c => [.chore w c]

/-- The turn as one operation of the sequential server. -/
def Turn.operation : Turn → Operation
  | update comm req => .update comm req
  | get key req => .get { req with keys := [key] }
  | chore (.delete key) => .delete key
  | chore (.flushAll newOldest) => .flushAll newOldest
  | chore .tick => .tick
  | chore (.evict p) => .evict p
  | chore .responseSent => .responseSent

section
variable {y : System} {w : Nat}

/-- What a turn shares with the others. -/
def System.shared (y : System) : State × (Nat → Pc) × Option Nat := (y.server, y.pc, y.mutex)

theorem run_idle (idle : y.pc w = .idle) (free : y.mutex = none) (n : Nat) :
    (run step y (List.replicate n (.advance w))).map System.shared =
      .ok (y.server, y.pc, none) := by
  induction n with
  | zero => simp [run, Except.map, System.shared, free]
  | succ n ih =>
    have stays : step y (.advance w) = .ok y := by simp [step, advance, idle]
    rw [List.replicate_succ, run_cons stays, ih]

theorem run_complete {p : ItemPtr} {comm : Nread} {req : StoreRequest}
    (here : y.pc w = .uploaded p comm req) (free : y.mutex = none) :
    (run step y (List.replicate 7 (.advance w))).map System.shared =
      (completeNreadAscii y.server p comm req).map
        fun r => (r.2, Function.update y.pc w .idle, none) := by
  have stored : step y (.advance w) = .ok (store y w p comm req) := by simp [step, advance, here]
  rw [List.replicate_succ, run_cons stored, store, completeNreadAscii]
  split
  · generalize doStoreItem y.server p comm req.setStale req.copy = result
    obtain ⟨ret, s⟩ := result
    cases tree : treeStep (s.modify p fun it => { it with mac := itemMac it req.flat }) p
        req.treeAllocs <;>
      simp [List.replicate, run, step, advance, lock, free, System.moveTo, System.mark,
        macStep_eq, tree, Except.map, System.shared]
  · exact @run_idle { y.moveTo w .idle with server := _ } w (by simp [System.moveTo]) free 6

/-- Without interruption, the steps of a storage command are the command. -/
theorem run_updateEvents (idle : y.pc w = .idle) (free : y.mutex = none) (comm : Nread)
    (req : StoreRequest) :
    (run step y (updateEvents w comm req)).map System.shared =
      (processUpdateCommand y.server comm req).map fun r => (r.2, y.pc, none) := by
  have uploaded : step y (.upload w comm req) = .ok (upload y w comm req) := by simp [step, idle]
  rw [updateEvents, run_cons uploaded, upload, processUpdateCommand]
  split
  · exact run_idle idle free 7
  rcases uploadItem y.server req req.data with ⟨_ | p, s⟩
  · exact @run_idle { y with server := dropOnFailedAlloc s req.key comm } w idle free 7
  · have done := @run_complete { y.moveTo w (.uploaded p comm req) with server := s } w p comm req
      (by simp [System.moveTo]) free
    simpa [System.moveTo, ← idle] using done

/-- Without interruption, the steps of a retrieval are the command. -/
theorem run_getEvents (idle : y.pc w = .idle) (free : y.mutex = none) (key : Key)
    (req : GetRequest) :
    (run step y (getEvents w key req.touch req.bump)).map System.shared =
      (processGetCommand y.server { req with keys := [key] }).map fun r => (r.2, y.pc, none) := by
  have looked : step y (.get w key req.touch req.bump) =
      .ok (lookup y w key req.touch req.bump) := by simp [step, idle]
  rw [getEvents, run_cons looked, lookup, processGetCommand, processGetKeys]
  split
  · exact run_idle idle free 3
  rw [processGetKey]
  rcases limitedGet y.server key req.touch req.bump with ⟨_ | p, s⟩
  · simpa [processGetKeys, Except.map] using @run_idle { y with server := s } w idle free 3
  · cases verified : verifyItem s p <;>
      simp [List.replicate, run, step, advance, lock, free, System.moveTo, verified, ← idle,
        processGetKeys, Except.map, System.shared]

theorem run_turn (idle : y.pc w = .idle) (free : y.mutex = none) (turn : Turn) :
    (run step y (turn.events w)).map System.shared =
      (Server.step y.server turn.operation).map fun s => (s, y.pc, none) := by
  cases turn with
  | update comm req =>
    rw [Turn.events, run_updateEvents idle free, Turn.operation, Server.step]
    cases processUpdateCommand y.server comm req <;> rfl
  | get key req =>
    rw [Turn.events, run_getEvents idle free, Turn.operation, Server.step]
    cases processGetCommand y.server { req with keys := [key] } <;> rfl
  | chore c =>
    cases c <;>
      simp [Turn.events, Turn.operation, run, step, idle, Except.map, System.shared, free,
        Chore.run, Server.step]

end

/-- Handlers that take turns do to the server what the sequential server does, traps
included. -/
theorem turns_run_as_operations (settings : Settings) (turns : List (Nat × Turn)) :
    (run step (System.init settings) (turns.flatMap fun t => t.2.events t.1)).map System.server =
      run Server.step (State.init settings) (turns.map fun t => t.2.operation) := by
  suffices runs : ∀ y : System, (∀ w, y.pc w = .idle) → y.mutex = none →
      (run step y (turns.flatMap fun t => t.2.events t.1)).map System.server =
        run Server.step y.server (turns.map fun t => t.2.operation) from
    runs _ (fun _ => rfl) rfl
  induction turns with
  | nil => exact fun _ _ _ => rfl
  | cons t turns ih =>
    intro y idle free
    have first := run_turn (idle t.1) free t.2
    rw [List.flatMap_cons, run_append_bind, List.map_cons, run]
    cases ran : run step y (t.2.events t.1) <;>
      cases alone : Server.step y.server t.2.operation <;>
      simp only [ran, alone, Except.map, System.shared, Except.ok.injEq, Prod.mk.injEq,
        reduceCtorEq, Except.error.injEq] at first
    · exact congrArg _ first
    · obtain ⟨rfl, pc, mutex⟩ := first
      exact ih _ (pc ▸ idle) mutex

end Kvsev.Concurrent
