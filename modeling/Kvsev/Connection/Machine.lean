import Kvsev.Connection.Transmit
import Kvsev.Transition.Run

/-!
# The state machine of a text connection

`drive_machine` on a TCP connection that speaks the text protocol and needs no
authentication. One step is one pass through its loop. A pass makes at most one kind of
system call; how many bytes that call transfers is an input of the step, and nothing
means that it would block. Once the machine has stopped, the next pass belongs to a new
call of `drive_machine`.

What the commands do to the items is left to handlers. A handler sees the items and the
words of its line, and says what becomes of the connection.

Allocations for responses and read buffers succeed, and the client does not close the
connection.
-/

namespace Kvsev.Connection

open Memory Server

/-! ## Responses -/

/-- What a `get` sends for a key that is found, and the item it belongs to. -/
structure Hit where
  line : List UInt8
  value : Iov
  item : ItemPtr

namespace Resp

/-- `resp_start` -/
def empty : Resp := ⟨[], 0, false, none, by decide, by decide, rfl⟩

/-- `out_string` -/
def outString (noreply : Bool) (str : List UInt8) : Resp :=
  if noreply then ⟨[], 0, true, none, by decide, by decide, rfl⟩
  else
    ⟨[.plain (str ++ crlf)], (str ++ crlf).length, false, none, by simp [mcRespIovcount],
      Bool.false_ne_true, rfl⟩

/-- What `process_get_command` puts into the response of a key: nothing, or a line and a
value. -/
def ofKey : Option Hit → Resp
  | none => empty
  | some ⟨line, value, item⟩ =>
    ⟨[.plain line, value], line.length + value.len, false, some item, by simp [mcRespIovcount],
      Bool.false_ne_true, rfl⟩

/-- The same for the last key. -/
def ofLastKey : Option Hit → Resp
  | none => outString false (text "END")
  | some ⟨line, value, item⟩ =>
    ⟨[.plain line, value, .plain (text "END" ++ crlf)],
      line.length + (value.len + (text "END" ++ crlf).length), false, some item,
      by simp [mcRespIovcount], Bool.false_ne_true, rfl⟩

end Resp

/-! ## Handlers -/

/-- The counters of the thread that `stats` reports. -/
structure Traffic where
  bytesRead : Nat
  bytesWritten : Nat

/-- What becomes of a storage command: an error, an error after which the value is thrown
away, or an item that waits for its value. The length is that of the value without the
line end. -/
inductive Begun (ρ : Type) where
  | refused (r : Resp)
  | swallow (r : Resp) (vlen : Nat)
  | upload (req : ρ) (vlen : Nat)

/-- The handlers of the commands, over the state of the server and the uploads. -/
structure Handlers (σ ρ : Type) where
  /-- `safe_strtol` and `realtime`, for the expiry of `gat`. -/
  exptime : σ → List UInt8 → Option Nat
  /-- `limited_get`, and what is sent for a hit. -/
  lookup : σ → Bool → Option Nat → Key → Option Hit × σ
  /-- `process_update_command` -/
  update : σ → Nread → Tokens → Begun ρ × σ
  /-- `process_mset_command` -/
  mset : σ → Tokens → Begun ρ × σ
  /-- `complete_nread_ascii` -/
  complete : σ → ρ → List UInt8 → Resp × σ
  /-- `process_stat` -/
  stats : σ → Traffic → Tokens → Resp × σ
  /-- `process_shutdown_command`; without a response the connection is closed. -/
  shutdown : σ → Tokens → Option Resp × σ
  watchEnabled : σ → Bool
  /-- `process_watch_command`; without a response the logger takes the connection. -/
  watch : σ → Tokens → Option Resp × σ
  lruCrawler : σ → Bool
  dumpEnabled : σ → Bool
  /-- `lru_crawler_crawl`: a response, or what the crawler writes to the socket itself. -/
  metadump : σ → Tokens → (Resp ⊕ List UInt8) × σ
  /-- The commands that answer with one response. -/
  answer : σ → Tokens → Resp × σ
  /-- `item_remove`, for the item of a response that is finished. -/
  release : σ → ItemPtr → σ

/-- A server whose commands leave its state alone. -/
def plainServer {σ ρ : Type} (begun : Begun ρ) (reply : String) : Handlers σ ρ where
  exptime _ _ := some 0
  lookup s _ _ _ := (none, s)
  update s _ _ := (begun, s)
  mset s _ := (begun, s)
  complete s _ _ := (Resp.outString false (text "STORED"), s)
  stats s _ _ := (Resp.outString false (text "END"), s)
  shutdown s _ := (none, s)
  watchEnabled _ := true
  watch s _ := (none, s)
  lruCrawler _ := true
  dumpEnabled _ := true
  metadump s _ := (.inr (text "END" ++ crlf), s)
  answer s _ := (Resp.outString false (text reply), s)
  release s _ := s

/-- What a command does to the connection. -/
inductive Effect (ρ : Type) where
  /-- More responses; they are sent at once, or when there is nothing else to do. -/
  | answer (rs : List Resp) (flush : Bool)
  /-- One response, and the end of all that are waiting and of those the command has begun. -/
  | kill (begun : List Resp) (r : Resp)
  | upload (req : ρ) (vlen : Nat)
  | swallow (r : Resp) (vlen : Nat)
  | quit
  | close
  /-- Another thread takes the connection: the logger for good, the crawler until it has
  written its output. -/
  | handOver (dump : Option (List UInt8))
  deriving DecidableEq

section

variable {σ ρ : Type} (h : Handlers σ ρ)

/-- What is found for the keys of a `get`, or for those before one that is too long. -/
abbrev Found := Except (List (Option Hit)) (List (Option Hit))

def Found.after (hits : List (Option Hit)) : Found → Found
  | .error later => .error (hits ++ later)
  | .ok later => .ok (hits ++ later)

/-- The inner loop of `process_get_command`, over the words of one call of the
tokenizer. -/
def getKeys (returnCas : Bool) (touch : Option Nat) : σ → List Key → Found × σ
  | s, [] => (.ok [], s)
  | s, key :: keys =>
    if keyMaxLength < key.length then (.error [], s)
    else
      let (hit, s) := h.lookup s returnCas touch key
      let (later, s) := getKeys returnCas touch s keys
      (Found.after [hit] later, s)

/-- The same where the tokenizer has found no word: that leaves an empty response. -/
def getBatch (returnCas : Bool) (touch : Option Nat) (s : σ) (keys : List Key) : Found × σ :=
  if keys = [] then (.ok [none], s) else getKeys h returnCas touch s keys

/-- The outer loop: another call of the tokenizer for what is left of the line. Each takes
bytes away, and the first number bounds how many there can be. -/
def getBatches (returnCas : Bool) (touch : Option Nat) :
    Nat → σ → List Key → Option (List UInt8) → Found × σ
  | 0, s, keys, _ => getBatch h returnCas touch s keys
  | more + 1, s, keys, rest =>
    match getBatch h returnCas touch s keys, rest with
    | (.ok hits, s), some line =>
      let t := tokenizeCommand line
      let (later, s) := getBatches returnCas touch more s t.words t.rest
      (Found.after hits later, s)
    | (found, s), _ => (found, s)

/-- The responses of a `get`. -/
def getResps : List (Option Hit) → List Resp
  | [] => []
  | [hit] => [Resp.ofLastKey hit]
  | hit :: hits => Resp.ofKey hit :: getResps hits

/-- What follows the loops of `process_get_command`. -/
def getEffect : Found → Effect ρ
  | .error hits =>
    .kill (hits.map Resp.ofKey) (Resp.outString false (text "CLIENT_ERROR bad command line format"))
  | .ok hits => .answer (getResps hits) true

def getAll (s : σ) (returnCas : Bool) (touch : Option Nat) (keys : List Key)
    (rest : Option (List UInt8)) : Effect ρ × σ :=
  let (found, s) := getBatches h returnCas touch (rest.getD []).length s keys rest
  (getEffect found, s)

/-- `process_get_command` -/
def processGetCommand (s : σ) (returnCas touch : Bool) (t : Tokens) : Effect ρ × σ :=
  if touch then
    match h.exptime s (t.words[1]?.getD []) with
    | none =>
      (.answer [Resp.outString false (text "CLIENT_ERROR invalid exptime argument")] false, s)
    | some exptime => getAll h s returnCas (some exptime) (t.words.drop 2) t.rest
  else getAll h s returnCas none (t.words.drop 1) t.rest

/-- The beginning of a storage command. -/
def Begun.effect : Begun ρ → Effect ρ
  | refused r => .answer [r] false
  | swallow r vlen => .swallow r vlen
  | upload req vlen => .upload req vlen

/-- `process_watch_command` -/
def processWatchCommand (s : σ) (stack : Bool) (t : Tokens) : Effect ρ × σ :=
  let refuse (str : String) : Effect ρ × σ :=
    (.answer [Resp.outString (setNoreplyMaybe t) (text str)] false, s)
  if ¬h.watchEnabled s then refuse "CLIENT_ERROR watch commands not allowed"
  else if stack then refuse "ERROR cannot pipeline other commands before watch"
  else
    match h.watch s t with
    | (some r, s) => (.answer [r] false, s)
    | (none, s) => (.handOver none, s)

/-- The part of `process_lru_crawler_command` that dumps the items. -/
def processMetadump (s : σ) (stack : Bool) (t : Tokens) : Effect ρ × σ :=
  let refuse (str : String) : Effect ρ × σ :=
    (.answer [Resp.outString false (text str)] false, s)
  if ¬h.lruCrawler s then refuse "CLIENT_ERROR lru crawler disabled"
  else if ¬h.dumpEnabled s then refuse "ERROR metadump not allowed"
  else if stack then refuse "ERROR cannot pipeline other commands before metadump"
  else
    match h.metadump s t with
    | (.inl r, s) => (.answer [r] false, s)
    | (.inr dump, s) => (.handOver (some dump), s)

/-- `process_command`; `stack` says whether other responses are waiting. -/
def processCommand (s : σ) (traffic : Traffic) (stack : Bool) (command : List UInt8) :
    Effect ρ × σ :=
  let t := tokenizeCommand command
  match dispatch t with
  | .get returnCas touch => processGetCommand h s returnCas touch t
  | .update comm =>
    let (begun, s) := h.update s comm t
    (begun.effect, s)
  | .mset =>
    let (begun, s) := h.mset s t
    (begun.effect, s)
  | .mn => (.answer [Resp.outString false (text "MN")] true, s)
  | .stats =>
    let (r, s) := h.stats s traffic t
    (.answer [r] false, s)
  | .shutdown =>
    match h.shutdown s t with
    | (some r, s) => (.answer [r] false, s)
    | (none, s) => (.close, s)
  | .metadump => processMetadump h s stack t
  | .watch => processWatchCommand h s stack t
  | .quit => (.quit, s)
  | .http => (.close, s)
  | .error => (.answer [Resp.outString false (text "ERROR")] false, s)
  | .other =>
    let (r, s) := h.answer s t
    (.answer [r] false, s)

end

/-! ## Connections -/

/-- `enum conn_states`, as far as it concerns text connections. A connection that reads a
value or throws one away counts the bytes that are left. -/
inductive ConnState (ρ : Type) where
  | newCmd
  | waiting
  | read
  | parseCmd
  | nread (req : ρ) (data : List UInt8) (rlbytes : Nat)
  | swallow (sbytes : Nat)
  | mwrite
  | closing
  | closed
  | watch (dump : Option (List UInt8))
  deriving DecidableEq

/-- The event a connection waits for. -/
inductive Interest where
  | read
  | write
  deriving DecidableEq, Repr

/-- A connection, with the state of the server. -/
structure Conn (σ ρ : Type) where
  store : σ
  state : ConnState ρ
  /-- The bytes from `rcurr` on that were read and not looked at. -/
  rbuf : List UInt8
  /-- The size of the buffer, or zero if there is none. -/
  rsize : Nat
  rbufMalloced : Bool
  resps : List Resp
  closeAfterWrite : Bool
  traffic : Traffic
  nreqs : Nat
  stop : Bool
  interest : Interest
  /-- What the client sends and the server has not read yet. -/
  input : List UInt8
  /-- What the client has got. -/
  sent : List UInt8

/-- The settings that matter for connections; `main` insists on the bound. -/
structure Limits where
  reqsPerEvent : Nat
  pos : 0 < reqsPerEvent

def readBufferSize : Nat := 16384

section

variable {σ ρ : Type} (h : Handlers σ ρ)

/-- A new connection, and all that the client is going to send. -/
def Conn.new (s : σ) (input : List UInt8) : Conn σ ρ where
  store := s
  state := .newCmd
  rbuf := []
  rsize := 0
  rbufMalloced := false
  resps := []
  closeAfterWrite := false
  traffic := ⟨0, 0⟩
  nreqs := 0
  stop := true
  interest := .read
  input := input
  sent := []

/-- `rbuf_release` -/
def rbufRelease (c : Conn σ ρ) : Conn σ ρ :=
  if c.rbuf = [] then { c with rsize := 0, rbufMalloced := false } else c

/-- `rbuf_alloc` -/
def rbufAlloc (c : Conn σ ρ) : Conn σ ρ :=
  if c.rsize = 0 then { c with rsize := readBufferSize } else c

/-- `rbuf_switch_to_malloc`, unless that was done before. -/
def rbufSwitchToMalloc (c : Conn σ ρ) : Conn σ ρ :=
  if c.rbufMalloced then c else { c with rsize := c.rsize * 2, rbufMalloced := true }

/-- `resp_finish`: the references of the responses go back. -/
def released (s : σ) (resps : List Resp) : σ := (resps.filterMap Resp.item).foldl h.release s

/-- What a command does to the connection. -/
def Conn.apply (c : Conn σ ρ) : Effect ρ → Conn σ ρ
  | .answer rs flush =>
    { c with resps := c.resps ++ rs, state := if flush then .mwrite else .newCmd }
  | .kill begun r =>
    { c with store := released h c.store (c.resps ++ begun), resps := [r], state := .newCmd }
  | .upload req vlen =>
    { c with resps := c.resps ++ [Resp.empty], state := .nread req [] (vlen + 2) }
  | .swallow r vlen => { c with resps := c.resps ++ [r], state := .swallow (vlen + 2) }
  | .quit =>
    { c with resps := c.resps ++ [Resp.empty], state := .mwrite, closeAfterWrite := true }
  | .close => { c with resps := c.resps ++ [Resp.empty], state := .closing }
  | .handOver dump => { c with resps := c.resps ++ [Resp.empty], state := .watch dump }

/-- `conn_parse_cmd` with `try_read_command_ascii`. -/
def parseCmd (c : Conn σ ρ) : Conn σ ρ :=
  match splitLine c.rbuf with
  | none =>
    if 1024 < c.rbuf.length ∧ ¬beginsMultiget c.rbuf then { c with state := .closing }
    else
      let c := if 1024 < c.rbuf.length then rbufSwitchToMalloc c else c
      { c with state := if c.resps = [] then .waiting else .mwrite }
  | some (line, rest) =>
    let (effect, store) := processCommand h c.store c.traffic (!c.resps.isEmpty) (chomp line)
    Conn.apply h { c with store, rbuf := rest } effect

/-- `reset_cmd_handler` -/
def resetCmdHandler (c : Conn σ ρ) : Conn σ ρ :=
  { c with
    state := if c.rbuf ≠ [] then .parseCmd else if c.resps ≠ [] then .mwrite else .waiting }

/-- `conn_new_cmd` -/
def newCmd (c : Conn σ ρ) : Conn σ ρ :=
  if 0 < c.nreqs then resetCmdHandler { c with nreqs := c.nreqs - 1 }
  else if c.resps ≠ [] then { c with state := .mwrite }
  else { c with interest := if c.rbuf ≠ [] then .write else c.interest, stop := true }

/-- `read` into the buffer. -/
def readInto (c : Conn σ ρ) (res : Nat) : Conn σ ρ :=
  { c with
    rbuf := c.rbuf ++ c.input.take res, input := c.input.drop res
    traffic := { c.traffic with bytesRead := c.traffic.bytesRead + res } }

/-- How much a `read` returns of the `k` bytes that have arrived, if the client has sent so
many. -/
def readable (input : List UInt8) (room k : Nat) : Nat := min (min k room) input.length

/-- The rest of the loop in `try_read_network` after a `read` that has filled the buffer,
with the number of reallocations that are left. -/
def readMore : Nat → Conn σ ρ → Nat → Conn σ ρ
  | 0, c, _ => c
  | allocs + 1, c, k =>
    let c := { c with rsize := c.rsize * 2 }
    let room := c.rsize - c.rbuf.length
    let res := readable c.input room k
    if res = room then readMore allocs (readInto c res) (k - res) else readInto c res

/-- `conn_read` with `try_read_network`. -/
def read (c : Conn σ ρ) (k : Nat) : Conn σ ρ :=
  let c := rbufAlloc c
  let full := c.rsize ≤ c.rbuf.length ∧ c.rbufMalloced
  let c := if full then { c with rsize := c.rsize * 2 } else c
  let room := c.rsize - c.rbuf.length
  let res := readable c.input room k
  -- A `read` into no room looks like the end of the stream.
  if room = 0 then { c with state := .closing }
  else if res = 0 then { c with state := .waiting }
  else if res = room ∧ c.rbufMalloced then
    { readMore (if full then 3 else 4) (readInto c res) (k - res) with state := .parseCmd }
  else { readInto c res with state := .parseCmd }

/-- A `read` that would block. -/
def blockRead (c : Conn σ ρ) : Conn σ ρ := { c with interest := .read, stop := true }

/-- `complete_nread`: the reply goes to the response that was begun with the command. -/
def completeNread (c : Conn σ ρ) (req : ρ) (data : List UInt8) : Conn σ ρ :=
  let (r, store) := h.complete c.store req data
  { c with store, resps := c.resps.dropLast ++ [r], state := .newCmd }

/-- `conn_nread` where bytes are left to be read: first those of the buffer, and then
those of the socket. -/
def nread (c : Conn σ ρ) (req : ρ) (data : List UInt8) (rlbytes k : Nat) : Conn σ ρ :=
  let tocopy := min c.rbuf.length rlbytes
  let data := data ++ c.rbuf.take tocopy
  let left := rlbytes - tocopy
  let c := { c with rbuf := c.rbuf.drop tocopy, state := .nread req data left }
  if left = 0 then c
  else
    let res := readable c.input left k
    if res = 0 then blockRead c
    else
      { c with
        input := c.input.drop res
        traffic := { c.traffic with bytesRead := c.traffic.bytesRead + res }
        state := .nread req (data ++ c.input.take res) (left - res) }

/-- `conn_swallow` where bytes are left to be thrown away. -/
def swallow (c : Conn σ ρ) (sbytes k : Nat) : Conn σ ρ :=
  if c.rbuf ≠ [] then
    let tocopy := min c.rbuf.length sbytes
    { c with rbuf := c.rbuf.drop tocopy, state := .swallow (sbytes - tocopy) }
  else
    let room := min c.rsize sbytes
    let res := readable c.input room k
    if room = 0 then { c with state := .closing }
    else if res = 0 then blockRead c
    else
      { c with
        input := c.input.drop res
        traffic := { c.traffic with bytesRead := c.traffic.bytesRead + res }
        state := .swallow (sbytes - res) }

/-- `conn_release_items` -/
def releaseItems (c : Conn σ ρ) : Conn σ ρ :=
  { c with store := released h c.store c.resps, resps := [] }

/-- All has been sent. -/
def sentAll (c : Conn σ ρ) : Conn σ ρ :=
  { releaseItems h c with state := if c.closeAfterWrite then .closing else .newCmd }

/-- What is left of a connection after `transmit`; the first responses are finished. -/
def Conn.withOutput (c : Conn σ ρ) (out : Output) : Conn σ ρ :=
  let written := out.sent.length - c.sent.length
  { c with
    store := released h c.store (c.resps.take (c.resps.length - out.resps.length))
    sent := out.sent, resps := out.resps
    traffic := { c.traffic with bytesWritten := c.traffic.bytesWritten + written } }

/-- `conn_mwrite`, where the socket has room for `k` bytes. -/
def mwrite (c : Conn σ ρ) (k : Nat) : Conn σ ρ :=
  match transmit ⟨c.resps, c.sent⟩ (if k = 0 then none else some k) with
  | (out, .complete) => sentAll h (c.withOutput h out)
  | (out, .incomplete) => c.withOutput h out
  | (out, .softError) => { c.withOutput h out with interest := .write, stop := true }

/-- `conn_waiting` -/
def waiting (c : Conn σ ρ) : Conn σ ρ :=
  { rbufRelease c with interest := .read, state := .read, stop := true }

/-- `conn_closing` with `conn_close`. -/
def closing (c : Conn σ ρ) : Conn σ ρ :=
  { releaseItems h c with rbuf := [], state := .closed, stop := true }

/-- The `switch` of `drive_machine`. -/
def advance (c : Conn σ ρ) (k : Nat) : Conn σ ρ :=
  match c.state with
  | .newCmd => newCmd c
  | .waiting => waiting c
  | .read => read c k
  | .parseCmd => parseCmd h c
  | .nread req data 0 => completeNread h c req data
  | .nread req data (left + 1) => nread c req data (left + 1) k
  | .swallow 0 => { c with state := .newCmd }
  | .swallow (left + 1) => swallow c (left + 1) k
  | .mwrite => mwrite h c k
  | .closing => closing h c
  | .closed | .watch _ => { c with stop := true }

/-- The event that a stopped connection waits for has come. -/
def ready (c : Conn σ ρ) (k : Nat) : Prop := 0 < k ∧ (c.interest = .read → c.input ≠ [])

instance (c : Conn σ ρ) (k : Nat) : Decidable (ready c k) :=
  inferInstanceAs (Decidable (_ ∧ _))

/-- Another call of `drive_machine` starts with a new allowance of requests. -/
def wake (limits : Limits) (c : Conn σ ρ) : Conn σ ρ :=
  { c with stop := false, nreqs := limits.reqsPerEvent }

/-- `conn_worker_readd`, for a connection that the crawler gives back. -/
def connWorkerReadd (c : Conn σ ρ) (dump : List UInt8) : Conn σ ρ :=
  { c with sent := c.sent ++ dump, state := .newCmd, interest := .read, stop := true }

/-- What happens to a connection that has stopped. -/
def resume (limits : Limits) (c : Conn σ ρ) (k : Nat) : Conn σ ρ :=
  match c.state with
  | .watch (some dump) => if k = 0 then c else connWorkerReadd c dump
  | .watch none | .closed => c
  | _ => if ready c k then advance h (wake limits c) k else c

/-- One pass through the loop of `drive_machine`, whose system call finds `k` bytes or as
much room. A connection that has stopped goes on with an event. -/
def pass (limits : Limits) (c : Conn σ ρ) (k : Nat) : Conn σ ρ :=
  if c.stop then resume h limits c k else advance h c k

def step (limits : Limits) (c : Conn σ ρ) (k : Nat) : Exec (Conn σ ρ) :=
  .ok (pass h limits c k)

end

end Kvsev.Connection
