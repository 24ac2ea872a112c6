import Kvsev.Server.Text
import Kvsev.Transition.Run

/-!
# Connections that speak the binary protocol

A request is a header of 24 bytes with the lengths of what follows: the extras and the key,
which are taken from the buffer together with the header, and the value, which is read into
an item or thrown away. Nothing else tells one request from the next, so what matters here
is how many bytes a connection takes for a request.

What a command does with the items is left out, as is sending its reply. Whether it ends in
an error, and whether there is memory, are inputs. A connection counts the bytes it has
taken from the stream.
-/

namespace Kvsev.Binary

open Memory Server

/-! ## Requests -/

/-- A number in network byte order. -/
def ntoh (bytes : List UInt8) : Nat := bytes.foldl (fun n b => n * 256 + b.toNat) 0

/-- `protocol_binary_request_header`, as far as it says how long a request is. -/
structure Header where
  magic : UInt8
  opcode : UInt8
  keylen : UInt16
  extlen : UInt8
  bodylen : UInt32
  deriving DecidableEq, Repr

def headerSize : Nat := 24

/-- `PROTOCOL_BINARY_REQ` -/
def magicReq : UInt8 := 0x80

def Header.ofBytes (bytes : List UInt8) : Header where
  magic := bytes.headD 0
  opcode := (bytes.drop 1).headD 0
  keylen := UInt16.ofNat (ntoh ((bytes.drop 2).take 2))
  extlen := (bytes.drop 4).headD 0
  bodylen := UInt32.ofNat (ntoh ((bytes.drop 8).take 4))

namespace Header

variable (h : Header)

def key : Nat := h.keylen.toNat

def ext : Nat := h.extlen.toNat

def body : Nat := h.bodylen.toNat

/-- What the header parser takes. -/
def front : Nat := headerSize + h.ext + h.key

/-- What is left of the body after the extras and the key. -/
def rest : Nat := h.body - (h.key + h.ext)

end Header

/-- `protocol_binary_command`, where a quiet command is the same as the other one. -/
inductive Command where
  | get
  | set
  | add
  | replace
  | delete
  | increment
  | decrement
  | quit
  | flush
  | noop
  | version
  | getk
  | append
  | prepend
  | stat
  | touch
  | gat
  | gatk
  | saslListMechs
  | saslAuth
  | saslStep
  | unknown
  deriving DecidableEq, Repr

def command (opcode : UInt8) : Command :=
  match opcode.toNat with
  | 0x00 | 0x09 => .get
  | 0x01 | 0x11 => .set
  | 0x02 | 0x12 => .add
  | 0x03 | 0x13 => .replace
  | 0x04 | 0x14 => .delete
  | 0x05 | 0x15 => .increment
  | 0x06 | 0x16 => .decrement
  | 0x07 | 0x17 => .quit
  | 0x08 | 0x18 => .flush
  | 0x0a => .noop
  | 0x0b => .version
  | 0x0c | 0x0d => .getk
  | 0x0e | 0x19 => .append
  | 0x0f | 0x1a => .prepend
  | 0x10 => .stat
  | 0x1c => .touch
  | 0x1d | 0x1e => .gat
  | 0x20 => .saslListMechs
  | 0x21 => .saslAuth
  | 0x22 => .saslStep
  | 0x23 | 0x24 => .gatk
  | _ => .unknown

/-- The lengths that `dispatch_bin_command` wants for a command. With others there is a
protocol error. -/
def lengthsOk (cmd : Command) (key ext body : Nat) : Prop :=
  match cmd with
  | .version | .noop | .quit | .saslListMechs => ext = 0 ∧ key = 0 ∧ body = 0
  | .flush => key = 0 ∧ body = ext ∧ (ext = 0 ∨ ext = 4)
  | .set | .add | .replace => ext = 8 ∧ key ≠ 0 ∧ key + 8 ≤ body
  | .get | .getk | .delete => 0 < key ∧ ext = 0 ∧ body = key
  | .increment | .decrement => 0 < key ∧ ext = 20 ∧ body = key + ext
  | .append | .prepend => 0 < key ∧ ext = 0
  | .stat => ext = 0
  | .saslAuth | .saslStep => ext = 0 ∧ key ≠ 0
  | .touch | .gat | .gatk => ext = 4 ∧ key ≠ 0
  | .unknown => True

instance (cmd : Command) (key ext body : Nat) : Decidable (lengthsOk cmd key ext body) := by
  unfold lengthsOk
  split <;> infer_instance

/-! ## Connections -/

/-- `enum conn_states`, as far as it concerns binary connections. -/
inductive ConnState where
  | newCmd
  | read
  | parseCmd
  | nread
  | swallow
  | mwrite
  | closing
  | closed
  deriving DecidableEq, Repr

structure Conn where
  state : ConnState
  rbuf : List UInt8
  rsize : Nat
  /-- What the client has sent and the server has not read. -/
  input : List UInt8
  /-- How many bytes of a value are left to be read. -/
  rlbytes : Int
  /-- How many bytes are left to be thrown away. -/
  sbytes : Int
  /-- The item that is read is a chain of chunks. -/
  chunked : Bool
  authenticated : Bool
  closeAfterWrite : Bool
  /-- The bytes of the stream that were used, of the header, the value or otherwise. -/
  taken : Nat
  deriving DecidableEq, Repr

structure Config where
  items : Settings
  sasl : Bool

/-- What a pass depends on besides the connection. -/
structure Event where
  /-- What the client sends meanwhile. -/
  more : List UInt8 := []
  /-- How many bytes a system call finds. -/
  k : Nat := 0
  /-- There is memory for an item, or for its next chunk. -/
  room : Bool := true
  /-- There is memory for a response. -/
  respStart : Bool := true
  /-- The command ends in an error. -/
  fails : Bool := false
  /-- All that was to be sent has been sent. -/
  sent : Bool := true

/-- The value an `int` has after storing `n` in it. -/
def intOf (n : Int) : Int := n.bmod (2 ^ 32)

section

variable (cfg : Config) (e : Event) (h : Header)

/-- `write_bin_error` -/
def writeBinError (c : Conn) (swallow : Int) : Conn :=
  if 0 < swallow then { c with sbytes := swallow, state := .swallow }
  else { c with state := .mwrite }

/-- `handle_binary_protocol_error` -/
def handleBinaryProtocolError (c : Conn) : Conn :=
  { writeBinError c 0 with closeAfterWrite := true }

/-- `write_bin_response` -/
def writeBinResponse (c : Conn) : Conn := { c with state := .newCmd }

/-- A command that ends at once, with a response or an error. -/
def answer (c : Conn) : Conn := if e.fails then writeBinError c 0 else writeBinResponse c

/-- `out_of_memory` -/
def outOfMemory (c : Conn) : Conn := writeBinError c 0

/-- `item_size_ok`, where `nbytes` is an `int`. -/
def itemSizeOk (nkey flags : Nat) (nbytes : Int) : Bool :=
  2 ≤ nbytes ∧ Server.itemSizeOk cfg.items nkey flags nbytes.toNat

/-- `item_alloc`: whether there is an item, and whether it is chunked. -/
def itemAlloc (nkey flags : Nat) (nbytes : Int) : Option Bool :=
  if itemSizeOk cfg nkey flags nbytes ∧ e.room then
    some (isLarge cfg.items nkey flags nbytes.toNat)
  else none

/-- The part that `process_bin_update` and `process_bin_append_prepend` have in common. -/
def beginUpload (c : Conn) (flags : Nat) (vlen : Int) : Conn :=
  match itemAlloc cfg e h.key flags (intOf (vlen + 2)) with
  | none =>
    if itemSizeOk cfg h.key flags (intOf (vlen + 2)) then
      { outOfMemory c with sbytes := vlen, state := .swallow }
    else { writeBinError c vlen with state := .swallow }
  | some chunked => { c with rlbytes := vlen, chunked, state := .nread }

/-- `process_bin_update` -/
def processBinUpdate (c : Conn) (flags : Nat) : Conn :=
  beginUpload cfg e h c flags (intOf (h.body - (h.key + h.ext)))

/-- `process_bin_append_prepend` -/
def processBinAppendPrepend (c : Conn) : Conn :=
  beginUpload cfg e h c 0 (intOf (h.body - h.key))

/-- `bin_list_sasl_mechs` -/
def binListSaslMechs (c : Conn) : Conn :=
  if ¬cfg.sasl then writeBinError c (intOf (h.body - h.key)) else answer e c

/-- `MAX_SASL_MECH_LEN` -/
def maxSaslMechLen : Nat := 32

/-- `process_bin_sasl_auth` -/
def processBinSaslAuth (c : Conn) : Conn :=
  let vlen := intOf (h.body - h.key)
  if ¬cfg.sasl then writeBinError c vlen
  else if maxSaslMechLen < h.key then { writeBinError c vlen with state := .swallow }
  else
    match itemAlloc cfg e h.key 0 (intOf (vlen + 2)) with
    | none | some true => { writeBinError c vlen with state := .swallow }
    | some false => { c with rlbytes := vlen, chunked := false, state := .nread }

/-- `authenticated` -/
def authenticated (c : Conn) (cmd : Command) : Bool :=
  match cmd with
  | .saslListMechs | .saslAuth | .saslStep | .version => true
  | _ => c.authenticated

/-- The `switch` of `dispatch_bin_command`, for a request with the right lengths. -/
def serve (c : Conn) (flags : Nat) : Command → Conn
  | .version => writeBinResponse c
  | .noop => { writeBinResponse c with state := .mwrite }
  | .quit => { writeBinResponse c with state := .mwrite, closeAfterWrite := true }
  | .set | .add | .replace => processBinUpdate cfg e h c flags
  | .append | .prepend => processBinAppendPrepend cfg e h c
  | .saslListMechs => binListSaslMechs cfg e h c
  | .saslAuth | .saslStep => processBinSaslAuth cfg e h c
  | .flush | .get | .getk | .delete | .increment | .decrement | .stat | .touch | .gat | .gatk =>
    answer e c
  | .unknown => writeBinError c (intOf h.body)

/-- `dispatch_bin_command` -/
def dispatchBinCommand (c : Conn) (flags : Nat) : Conn :=
  let cmd := command h.opcode
  if h.body < h.key ∨ h.body < h.key + h.ext then
    { writeBinError c 0 with closeAfterWrite := true }
  else if cfg.sasl ∧ ¬authenticated c cmd then
    { writeBinError c 0 with closeAfterWrite := true }
  else if keyMaxLength < h.key then handleBinaryProtocolError c
  else if lengthsOk cmd h.key h.ext h.body then serve cfg e h c flags cmd
  else handleBinaryProtocolError c

/-- The flags in the extras of a storage command. -/
def requestFlags (bytes : List UInt8) : Nat := ntoh ((bytes.drop headerSize).take 4)

/-- The header and what comes with it are taken from the buffer. -/
def takeFront (c : Conn) (n : Nat) : Conn :=
  { c with rbuf := c.rbuf.drop n, taken := c.taken + n }

/-- `try_read_command_binary` -/
def tryReadCommandBinary (c : Conn) : Conn :=
  if c.rbuf.length < headerSize then { c with state := .read }
  else
    let h := Header.ofBytes c.rbuf
    if h.magic ≠ magicReq then { c with state := .closing }
    else if c.rbuf.length < h.front then { c with state := .read }
    else if ¬e.respStart then { c with state := .closing }
    else dispatchBinCommand cfg e h (takeFront c h.front) (requestFlags c.rbuf)

/-- `conn_read`; a buffer without room looks like the end of the stream. -/
def read (c : Conn) : Conn :=
  let room := c.rsize - c.rbuf.length
  let res := min (min e.k room) c.input.length
  if room = 0 then { c with state := .closing }
  else if res = 0 then c
  else
    { c with rbuf := c.rbuf ++ c.input.take res, input := c.input.drop res, state := .parseCmd }

/-- `conn_nread`, with `read_into_chunked_item` for chunked items. -/
def nread (c : Conn) : Conn :=
  let left := c.rlbytes.toNat
  let tocopy := min c.rbuf.length left
  let res := min (min e.k (left - tocopy)) c.input.length
  if c.rlbytes = 0 then answer e c
  else if c.rlbytes < 0 then { c with state := .closing }
  else if c.chunked ∧ ¬e.room then
    { outOfMemory c with sbytes := c.rlbytes, state := .swallow }
  else
    { c with
      rbuf := c.rbuf.drop tocopy, input := c.input.drop res
      taken := c.taken + (tocopy + res), rlbytes := c.rlbytes - (tocopy + res : Nat) }

/-- `conn_swallow` -/
def swallow (c : Conn) : Conn :=
  let left := c.sbytes.toNat
  if c.sbytes ≤ 0 then { c with state := .newCmd }
  else if c.rbuf ≠ [] then
    let tocopy := min c.rbuf.length left
    { c with
      rbuf := c.rbuf.drop tocopy, taken := c.taken + tocopy, sbytes := c.sbytes - tocopy }
  else
    let res := min (min e.k (min c.rsize left)) c.input.length
    { c with input := c.input.drop res, taken := c.taken + res, sbytes := c.sbytes - res }

/-- `conn_mwrite` -/
def mwrite (c : Conn) : Conn :=
  if ¬e.sent then c
  else { c with state := if c.closeAfterWrite then .closing else .newCmd }

/-- The `switch` of `drive_machine`. -/
def advance (c : Conn) : Conn :=
  match c.state with
  | .newCmd => { c with state := if c.rbuf ≠ [] then .parseCmd else .read }
  | .read => read e c
  | .parseCmd => tryReadCommandBinary cfg e c
  | .nread => nread e c
  | .swallow => swallow e c
  | .mwrite => mwrite e c
  | .closing | .closed => { c with state := .closed }

end

/-- More bytes arrive. -/
def Conn.receive (c : Conn) (more : List UInt8) : Conn := { c with input := c.input ++ more }

/-- One pass of `drive_machine`. -/
def step (cfg : Config) (c : Conn) (e : Event) : Exec Conn :=
  .ok (advance cfg e (c.receive e.more))

end Kvsev.Binary
