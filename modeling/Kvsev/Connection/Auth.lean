import Kvsev.Binary.Framing
import Kvsev.Connection.Storage
import Kvsev.Memory.Bytes
import Kvsev.Memory.Copies

/-!
# Authentication on text connections

Where there is an authentication file, a text connection begins with commands that
`try_read_command_asciiauth` reads. A `set` line announces a length; so many bytes follow, a user
and a password, and a line end. The length with its line end is kept in the `int` `rlbytes`,
which also says how far the buffer is advanced.

The buffer is one from the cache of the thread. It is given back when the connection waits
with nothing unread, and the next one comes with what others left in it. Two fields of the model
are not in the source: `unread` counts the received bytes that no command has taken, and `size`
keeps the length of the line. The zeroes that `tokenize_command` puts behind words are left out.
They lie before `rcurr`.
-/

namespace Kvsev.Connection.Auth

open Memory Transition Binary

/-! ## The code -/

structure Conn where
  rbuf : Block UInt8
  /-- Counted from `rbuf`. -/
  rcurr : Int
  rbytes : Int
  rlbytes : Int
  saslStarted : Bool
  authenticated : Bool
  closing : Bool
  out : List String
  authCmds : Nat
  authErrors : Nat
  unread : Nat
  size : Nat

namespace Conn

/-- A new connection, with a buffer that holds anything. -/
def new (fresh : Nat → UInt8) : Conn :=
  ⟨⟨readBufferSize, fresh⟩, 0, 0, 0, false, false, false, [], 0, 0, 0, 0⟩

def outString (c : Conn) (str : String) : Conn := { c with out := c.out ++ [str] }

/-- `conn_set_state(c, conn_closing)` -/
def setClosing (c : Conn) : Conn := { c with closing := true }

/-- The reader is still in charge of the connection. -/
def live (c : Conn) : Prop := c.closing = false ∧ c.authenticated = false

instance (c : Conn) : Decidable c.live := instDecidableAnd

/-- What the buffer holds from `rcurr` on. -/
def pending (c : Conn) : List UInt8 := c.rbuf.slice c.rcurr.toNat c.rbytes.toNat

end Conn

/-- Bytes of the buffer. -/
def getBytes (b : Block UInt8) (start len : Int) : Exec (List UInt8) :=
  if 0 ≤ start ∧ 0 ≤ len ∧ start + len ≤ b.size then .ok (b.slice start.toNat len.toNat)
  else .error .invalidAccess

def putBytes (b : Block UInt8) (start : Int) (data : List UInt8) : Exec (Block UInt8) :=
  if 0 ≤ start then b.memcpy start.toNat (.ofList data) 0 data.length else .error .invalidAccess

/-- `rbuf_release` and then `rbuf_alloc` -/
def rbufRenew (fresh : Nat → UInt8) (c : Conn) : Conn :=
  if c.rbytes = 0 then { c with rbuf := ⟨readBufferSize, fresh⟩, rcurr := 0 } else c

/-- The unread bytes move to the start of the buffer. -/
def moveDown (c : Conn) : Exec (Block UInt8) :=
  if c.rcurr ≠ 0 ∧ c.rbytes ≠ 0 then do putBytes c.rbuf 0 (← getBytes c.rbuf c.rcurr c.rbytes)
  else .ok c.rbuf

/-- `try_read_network`, when these bytes are there to be read. A read into no room at all
looks like the end of the stream. -/
def tryReadNetwork (bytes : List UInt8) (c : Conn) : Exec Conn := do
  let rbuf ← moveDown c
  let avail := rbuf.size - c.rbytes
  if avail = 0 then return { c with rbuf, rcurr := 0, closing := true }
  let data := bytes.take avail.toNat
  let rbuf ← putBytes rbuf c.rbytes data
  return { c with
    rbuf, rcurr := 0, rbytes := intOf (c.rbytes + data.length), unread := c.unread + data.length }

/-- The length on the line of the command. The key, the flags and the expiry can be
anything. -/
def authSize (t : Tokens) : Option Nat :=
  if t.ntokens < 6 ∨ t.words.head? ≠ some (text "set") then none else safeStrtoul (t.word 4)

/-- A whole line is taken out of the buffer. -/
def Conn.takeLine (c : Conn) (rbuf : Block UInt8) (line : List UInt8) : Conn :=
  { c with
    rbuf, rbytes := c.rbytes - (line.length + 1), rcurr := c.rcurr + (line.length + 1),
    unread := c.unread - (line.length + 1) }

/-- The first half of `try_read_command_asciiauth`. It may return before the data are looked
at. -/
def readAuthLine (respStart : Bool) (c : Conn) : Exec (Option Bool × Conn) := do
  if c.saslStarted then return (none, c)
  if c.rbytes < 2 then return (some false, c)
  match splitLine (← getBytes c.rbuf c.rcurr c.rbytes) with
  | none =>
    if 1024 < c.rbytes then return (some true, c.setClosing) else return (some false, c)
  | some (line, _) =>
    let rbuf ← putBytes c.rbuf (c.rcurr + line.length) [0]
    let c := c.takeLine rbuf line
    match authSize (tokenizeCommand line) with
    | none =>
      return (some true,
        if respStart then c.outString "CLIENT_ERROR unauthenticated" else c.setClosing)
    | some size =>
      return (none, { c with rlbytes := intOf (size + 2), saslStarted := true, size })

/-- Where the data of the command begin, and how many of them were received. -/
structure Payload where
  start : Int
  len : Nat

def Conn.payload (c : Conn) : Payload := ⟨c.rcurr, min (c.size + 2) c.unread⟩

/-- An access to something else than the data of the command is a failure. -/
def Payload.touch (p : Payload) (start : Int) (len : Nat) : Exec Unit :=
  if p.start ≤ start ∧ start + len ≤ p.start + p.len then .ok () else .error .invalidAccess

/-- The buffer is advanced, no matter what comes next. -/
def Conn.advance (c : Conn) : Conn :=
  { c with
    rbytes := intOf (c.rbytes - c.rlbytes), rcurr := c.rcurr + c.rlbytes, saslStarted := false,
    unread := c.unread - c.rlbytes.toNat }

variable (check : List UInt8 → List UInt8 → Bool)

/-- What becomes of the user and the password. -/
def finishAuth (c : Conn) (t : Tokens) : Conn :=
  if t.ntokens < 3 then c.outString "CLIENT_ERROR bad authentication token format"
  else if check (t.word 0) (t.word 1) then
    { c.outString "STORED" with authenticated := true, authCmds := c.authCmds + 1 }
  else
    { c.outString "CLIENT_ERROR authentication failure" with
      authCmds := c.authCmds + 1, authErrors := c.authErrors + 1 }

/-- The data are taken out of the buffer. They must end with a line end, which is cut off. -/
def takeAuthData (c : Conn) : Exec Conn := do
  let cont := c.rcurr
  let data := c.payload
  let c := c.advance
  data.touch (cont + c.rlbytes - 2) 2
  if (← getBytes c.rbuf (cont + c.rlbytes - 2) 2) ≠ crlf then
    return c.outString "CLIENT_ERROR bad command line termination"
  data.touch (cont + c.rlbytes - 2) 1
  let rbuf ← putBytes c.rbuf (cont + c.rlbytes - 2) [0]
  let command ← getBytes rbuf cont (c.rlbytes - 2)
  return finishAuth check { c with rbuf } (tokenizeCommand command)

/-- The second half of `try_read_command_asciiauth`. -/
def readAuthData (respStart : Bool) (c : Conn) : Exec (Bool × Conn) := do
  if c.rbytes < c.rlbytes then return (false, c)
  if ¬respStart then return (true, c.setClosing)
  return (true, ← takeAuthData check c)

/-- `try_read_command_asciiauth` -/
def tryReadCommandAsciiauth (respStart : Bool) (c : Conn) : Exec (Bool × Conn) := do
  match ← readAuthLine respStart c with
  | (some result, c) => return (result, c)
  | (none, c) => readAuthData check respStart c

/-- Bytes arrive at a connection that waits, or what it holds is parsed. Whether there is a
response object is an input. -/
inductive Event where
  | receive (bytes : List UInt8) (fresh : Nat → UInt8)
  | parse (respStart : Bool)

def step (c : Conn) : Event → Exec Conn
  | .receive bytes fresh => if c.live then tryReadNetwork bytes (rbufRenew fresh c) else .ok c
  | .parse respStart =>
    if c.live ∧ 0 < c.rbytes then do
      let (_, c) ← tryReadCommandAsciiauth check respStart c
      return c
    else .ok c

/-! ## Safety -/

/-- `rbytes` counts only bytes that were received and not read, and `rcurr` is in the buffer. -/
structure Conn.Safe (c : Conn) : Prop where
  rbytes : c.rbytes ≤ c.unread
  rcurr : 0 ≤ c.rcurr ∧ c.rcurr ≤ c.rbuf.size

/-- The length the next call works with, from the line of the command, and the number of bytes
behind that line. -/
def Conn.announced (c : Conn) : Option (Nat × Nat) :=
  if c.saslStarted then some (c.size, c.unread)
  else
    match splitLine c.pending with
    | none => none
    | some (line, rest) => (authSize (tokenizeCommand line)).map fun size => (size, rest.length)

/-- The length and the line end fit into an `int`. Otherwise the call has to end before the
buffer is advanced: there is no response object, or the sum is one and nothing has come. -/
def Harmless (respStart : Bool) (size rest : Nat) : Prop :=
  size + 2 < 2 ^ 31 ∨ respStart = false ∨ size + 1 = 2 ^ 32 ∧ rest = 0

/-- A call of the reader works with a harmless length, if with any. -/
def Permits (c : Conn) : Event → Prop
  | .receive _ _ => True
  | .parse respStart => c.live → 0 < c.rbytes →
      ∀ size rest, c.announced = some (size, rest) → Harmless respStart size rest

/-- What every call leaves behind. -/
structure Conn.Inv (c : Conn) : Prop where
  count : c.rbytes = c.unread
  start : 0 ≤ c.rcurr
  inside : c.rcurr + c.rbytes ≤ c.rbuf.size
  whole : c.rbuf.size = readBufferSize
  length : c.saslStarted = true → c.size < 2 ^ 32 ∧ c.rlbytes = intOf (c.size + 2)

variable {check} {c c' : Conn} {b b' : Block UInt8} {start len : Int} {data bytes : List UInt8}
  {respStart : Bool}

theorem Conn.Inv.safe (inv : c.Inv) : c.Safe := by
  obtain ⟨count, start, inside, -, -⟩ := inv
  exact ⟨by omega, start, by omega⟩

theorem Conn.inv_new (fresh : Nat → UInt8) : (Conn.new fresh).Inv :=
  ⟨rfl, Int.le_refl 0, Int.natCast_nonneg readBufferSize, rfl, nofun⟩

/-! ## Accesses -/

theorem getBytes_of_le (low : 0 ≤ start) (nonneg : 0 ≤ len) (high : start + len ≤ b.size) :
    getBytes b start len = .ok (b.slice start.toNat len.toNat) := if_pos ⟨low, nonneg, high⟩

theorem putBytes_of_le (low : 0 ≤ start) (high : start + data.length ≤ b.size) :
    ∃ b', putBytes b start data = .ok b' ∧ b'.size = b.size := by
  obtain ⟨b', ran, copied⟩ := Block.memcpy_spec
    (show 0 + data.length ≤ (Block.ofList data).size by simp [Block.ofList])
    (show start.toNat + data.length ≤ b.size by omega)
  exact ⟨b', by rw [putBytes, if_pos low, ran], copied.size⟩

/-! ## Reading from the network -/

theorem rbufRenew_inv (inv : c.Inv) (fresh : Nat → UInt8) : (rbufRenew fresh c).Inv := by
  rw [rbufRenew]
  split
  · rename_i empty
    exact ⟨inv.count, Int.le_refl 0, by simp [empty], rfl, inv.length⟩
  · exact inv

theorem moveDown_size (inv : c.Inv) : ∃ b, moveDown c = .ok b ∧ b.size = c.rbuf.size := by
  obtain ⟨count, low, inside, -, -⟩ := inv
  rw [moveDown]
  split
  · rw [getBytes_of_le low (by omega) inside, Exec.ok_bind]
    exact putBytes_of_le (Int.le_refl 0) (by rw [Block.length_slice]; omega)
  · exact ⟨c.rbuf, rfl, rfl⟩

theorem tryReadNetwork_inv (inv : c.Inv) (bytes : List UInt8) :
    ∃ c', tryReadNetwork bytes c = .ok c' ∧ c'.Inv := by
  obtain ⟨b, moved, size⟩ := moveDown_size inv
  obtain ⟨count, low, inside, whole, length⟩ := inv
  rw [tryReadNetwork, moved, Exec.ok_bind]
  simp only [size]
  split
  · exact ⟨_, rfl, count, Int.le_refl 0, by simp only; omega, size.trans whole, length⟩
  obtain ⟨data, data_eq⟩ : ∃ d, bytes.take (c.rbuf.size - c.rbytes).toNat = d := ⟨_, rfl⟩
  have few : data.length ≤ (c.rbuf.size - c.rbytes).toNat := by
    rw [← data_eq]
    exact List.length_take_le _ _
  have small : c.unread + data.length < 2 ^ 31 := by
    rw [readBufferSize] at whole
    omega
  have sum : intOf (c.rbytes + data.length) = (c.unread + data.length : Nat) := by
    rw [count]
    exact_mod_cast intOf_of_lt small
  obtain ⟨b', stored, size'⟩ :=
    putBytes_of_le (show 0 ≤ c.rbytes by omega) (show c.rbytes + data.length ≤ b.size by omega)
  simp only [data_eq, stored, Exec.ok_bind, sum]
  refine ⟨_, rfl, rfl, Int.le_refl 0, ?_, size'.trans (size.trans whole), length⟩
  simp only [size', size]
  omega

/-! ## The line -/

theorem Conn.Inv.getBytes_pending (inv : c.Inv) :
    getBytes c.rbuf c.rcurr c.rbytes = .ok c.pending :=
  getBytes_of_le inv.start (by rw [inv.count]; exact Int.natCast_nonneg _) inv.inside

/-- How much of the pending bytes a line and the rest are. -/
theorem Conn.Inv.unread_of_split {line rest : List UInt8} (inv : c.Inv)
    (split : splitLine c.pending = some (line, rest)) :
    c.unread = line.length + 1 + rest.length := by
  have whole := congrArg List.length (splitLine_some split).1
  have count := inv.count
  rw [Conn.pending, Block.length_slice, List.length_append, List.length_cons] at whole
  omega

theorem Conn.announced_of_line {line rest : List UInt8} (fresh : ¬c.saslStarted = true)
    (split : splitLine c.pending = some (line, rest)) : c.announced =
      (authSize (tokenizeCommand line)).map fun size => (size, rest.length) := by
  rw [announced, if_neg fresh, split]

/-- A single byte is no command. -/
theorem Conn.Inv.announced_of_short (inv : c.Inv) (fresh : ¬c.saslStarted = true)
    (short : c.rbytes < 2) : c.announced = none := by
  cases split : splitLine c.pending with
  | none => rw [Conn.announced, if_neg fresh, split]
  | some parts =>
    obtain ⟨line, rest⟩ := parts
    have few := inv.unread_of_split split
    have count := inv.count
    obtain rfl : line = [] := List.eq_nil_of_length_eq_zero (by omega)
    rw [Conn.announced_of_line fresh split]
    rfl

theorem Conn.Inv.takeLine {line rest : List UInt8} (inv : c.Inv) (size : b.size = c.rbuf.size)
    (fresh : ¬c.saslStarted = true) (taken : c.unread = line.length + 1 + rest.length) :
    (c.takeLine b line).Inv ∧ (c.takeLine b line).unread = rest.length := by
  obtain ⟨count, low, inside, whole, -⟩ := inv
  refine ⟨⟨?_, ?_, ?_, size.trans whole, fun started => absurd started fresh⟩, ?_⟩ <;>
    simp only [Conn.takeLine] <;> omega

theorem safeStrtoul_lt {str : List UInt8} {n : Nat} (read : safeStrtoul str = some n) :
    n < 2 ^ 32 := by
  obtain ⟨m, -, rfl⟩ := Option.map_eq_some_iff.mp read
  exact Nat.mod_lt _ (by decide)

theorem authSize_lt {t : Tokens} {n : Nat} (read : authSize t = some n) : n < 2 ^ 32 := by
  rw [authSize] at read
  split at read
  · cases read
  · exact safeStrtoul_lt read

/-- The first half returns. It goes on to the data exactly if a length is announced. -/
theorem readAuthLine_spec (inv : c.Inv) (respStart : Bool) :
    ∃ result c', readAuthLine respStart c = .ok (result, c') ∧ c'.Inv ∧
      match result with
      | none => c'.saslStarted = true ∧ c.announced = some (c'.size, c'.unread)
      | some _ => c.announced = none := by
  by_cases fresh : ¬c.saslStarted = true
  case neg =>
    have started := not_not.mp fresh
    exact ⟨none, c, by rw [readAuthLine, if_pos started]; rfl, inv, started, if_pos started⟩
  rw [readAuthLine, if_neg fresh]
  by_cases short : c.rbytes < 2
  · exact ⟨some false, c, if_pos short, inv, inv.announced_of_short fresh short⟩
  rw [if_neg short, inv.getBytes_pending, Exec.ok_bind]
  cases split : splitLine c.pending with
  | none =>
    have nothing : c.announced = none := by rw [Conn.announced, if_neg fresh, split]
    by_cases junk : 1024 < c.rbytes
    · exact ⟨some true, c.setClosing, if_pos junk,
        ⟨inv.count, inv.start, inv.inside, inv.whole, inv.length⟩, nothing⟩
    · exact ⟨some false, c, if_neg junk, inv, nothing⟩
  | some parts =>
    obtain ⟨line, rest⟩ := parts
    have taken := inv.unread_of_split split
    obtain ⟨b, stored, size⟩ : ∃ b, putBytes c.rbuf (c.rcurr + line.length) [0] = .ok b ∧
        b.size = c.rbuf.size := by
      obtain ⟨count, low, inside, -, -⟩ := inv
      exact putBytes_of_le (by omega) (by rw [List.length_singleton]; omega)
    obtain ⟨next, left⟩ := inv.takeLine size fresh taken
    rw [Conn.announced_of_line fresh split]
    simp only [stored, Exec.ok_bind]
    cases read : authSize (tokenizeCommand line) with
    | none =>
      refine ⟨_, _, rfl, ?_, rfl⟩
      split
      all_goals exact ⟨next.count, next.start, next.inside, next.whole, next.length⟩
    | some n =>
      have bound := authSize_lt read
      refine ⟨none, _, rfl, ⟨next.count, next.start, next.inside, next.whole, fun _ => ?_⟩,
        rfl, by rw [Option.map_some, ← left]⟩
      refine ⟨bound, ?_⟩
      simp only

/-! ## The data -/

/-- The `int` for a length that does not fit is at most one. -/
theorem intOf_le_one {size : Nat} (large : 2 ^ 31 ≤ size + 2) (bound : size < 2 ^ 32) :
    intOf (size + 2) ≤ 1 ∧ (intOf (size + 2) = 1 ↔ size + 1 = 2 ^ 32) := by
  by_cases wraps : size + 2 < 2 ^ 32
  · have value := intOf_of_le large wraps
    push_cast at value
    rw [value]
    omega
  · obtain rfl | rfl : size = 2 ^ 32 - 2 ∨ size = 2 ^ 32 - 1 := by omega
    · decide
    · decide

/-- The data of a command whose length fits. -/
theorem Conn.Inv.rlbytes (inv : c.Inv) (started : c.saslStarted = true)
    (small : c.size + 2 < 2 ^ 31) : c.rlbytes = (c.size + 2 : Nat) := by
  rw [(inv.length started).2, ← intOf_of_lt small]
  push_cast
  rfl

theorem Conn.Inv.advance (inv : c.Inv) (rlbytes : c.rlbytes = (c.size + 2 : Nat))
    (enough : ¬c.rbytes < c.rlbytes) : c.advance.Inv := by
  obtain ⟨count, low, inside, whole, -⟩ := inv
  have left : intOf (c.rbytes - c.rlbytes) = (c.unread - (c.size + 2) : Nat) := by
    have small : c.unread - (c.size + 2) < 2 ^ 31 := by
      rw [readBufferSize] at whole
      omega
    rw [← intOf_of_lt small]
    congr 1
    omega
  refine ⟨?_, ?_, ?_, whole, nofun⟩ <;> simp only [Conn.advance, left] <;> omega

theorem Conn.Inv.setRbuf (inv : c.Inv) (size : b.size = c.rbuf.size) :
    Conn.Inv { c with rbuf := b } := by
  refine ⟨inv.count, inv.start, ?_, size.trans inv.whole, inv.length⟩
  rw [size]
  exact inv.inside

theorem finishAuth_inv (inv : c.Inv) (check : List UInt8 → List UInt8 → Bool) (t : Tokens) :
    (finishAuth check c t).Inv := by
  rw [finishAuth]
  split
  · exact ⟨inv.count, inv.start, inv.inside, inv.whole, inv.length⟩
  · split <;> exact ⟨inv.count, inv.start, inv.inside, inv.whole, inv.length⟩

/-- The end of the data is where the line end is looked for. -/
theorem touch_payload (inv : c.Inv) (rlbytes : c.rlbytes = (c.size + 2 : Nat))
    (enough : ¬c.rbytes < c.rlbytes) {n : Nat} (le : n ≤ 2) :
    c.payload.touch (c.rcurr + c.rlbytes - 2) n = .ok () := by
  have count := inv.count
  refine if_pos ?_
  simp only [Conn.payload]
  omega

theorem takeAuthData_inv (check : List UInt8 → List UInt8 → Bool) (inv : c.Inv)
    (rlbytes : c.rlbytes = (c.size + 2 : Nat)) (enough : ¬c.rbytes < c.rlbytes) :
    ∃ c', takeAuthData check c = .ok c' ∧ c'.Inv := by
  have next := inv.advance rlbytes enough
  obtain ⟨low, inside⟩ : 0 ≤ c.rcurr + c.rlbytes - 2 ∧ c.rcurr + c.rlbytes ≤ c.rbuf.size := by
    obtain ⟨count, low, inside, -, -⟩ := inv
    omega
  have read : getBytes c.rbuf (c.rcurr + c.rlbytes - 2) 2 = .ok _ :=
    getBytes_of_le low (by decide) (by omega)
  obtain ⟨b, stored, size⟩ := putBytes_of_le low
    (show c.rcurr + c.rlbytes - 2 + [(0 : UInt8)].length ≤ c.rbuf.size by
      rw [List.length_singleton]; omega)
  have command : getBytes b c.rcurr (c.rlbytes - 2) = .ok _ :=
    getBytes_of_le inv.start (by omega) (by omega)
  rw [takeAuthData]
  simp only [Conn.advance, touch_payload inv rlbytes enough (Nat.le_refl 2), read, Exec.ok_bind]
  split
  · exact ⟨_, rfl, next.count, next.start, next.inside, next.whole, next.length⟩
  · simp only [touch_payload inv rlbytes enough (show 1 ≤ 2 by decide), stored, command,
      Exec.ok_bind]
    exact ⟨_, rfl, finishAuth_inv (next.setRbuf size) check _⟩

/-- A length that does not fit points before the data. -/
theorem takeAuthData_error (few : c.rlbytes ≤ 1) :
    takeAuthData check c = .error .invalidAccess := by
  have before : c.payload.touch (c.rcurr + c.rlbytes - 2) 2 = .error .invalidAccess := by
    refine if_neg ?_
    simp only [Conn.payload]
    omega
  simp only [takeAuthData, Conn.advance, before, Exec.error_bind]

theorem readAuthData_inv (check : List UInt8 → List UInt8 → Bool) (inv : c.Inv)
    (started : c.saslStarted = true) (harmless : Harmless respStart c.size c.unread) :
    ∃ result, readAuthData check respStart c = .ok result ∧ result.2.Inv := by
  rw [readAuthData]
  by_cases few : c.rbytes < c.rlbytes
  · exact ⟨(false, c), if_pos few, inv⟩
  rw [if_neg few]
  obtain small | rfl | ⟨wraps, nothing⟩ := harmless
  · cases respStart with
    | false =>
      exact ⟨(true, c.setClosing), rfl, inv.count, inv.start, inv.inside, inv.whole, inv.length⟩
    | true =>
      obtain ⟨c', ran, next⟩ :=
        takeAuthData_inv check inv (inv.rlbytes started small) few
      exact ⟨(true, c'), by rw [ran]; rfl, next⟩
  · exact ⟨(true, c.setClosing), rfl, inv.count, inv.start, inv.inside, inv.whole, inv.length⟩
  · obtain ⟨bound, rlbytes⟩ := inv.length started
    have one := (intOf_le_one (show 2 ^ 31 ≤ c.size + 2 by omega) bound).2.mpr wraps
    have count := inv.count
    omega

theorem harmless_of_readAuthData {result : Bool × Conn} (inv : c.Inv)
    (started : c.saslStarted = true) (ran : readAuthData check respStart c = .ok result) :
    Harmless respStart c.size c.unread := by
  by_contra harmful
  simp only [Harmless, not_or, not_and] at harmful
  obtain ⟨large, resp, wraps⟩ := harmful
  obtain ⟨bound, rlbytes⟩ := inv.length started
  obtain ⟨most, one⟩ := intOf_le_one (show 2 ^ 31 ≤ c.size + 2 by omega) bound
  have count := inv.count
  have enough : ¬c.rbytes < c.rlbytes := by omega
  cases respStart with
  | false => exact resp rfl
  | true =>
    rw [readAuthData, if_neg enough, takeAuthData_error (by omega)] at ran
    cases ran

/-! ## Runs -/

theorem step_inv (inv : c.Inv) {e : Event} (permits : Permits c e) :
    ∃ c', step check c e = .ok c' ∧ c'.Inv := by
  cases e with
  | receive bytes fresh =>
    rw [step]
    split
    · exact tryReadNetwork_inv (rbufRenew_inv inv fresh) bytes
    · exact ⟨c, rfl, inv⟩
  | parse respStart =>
    rw [step]
    split
    · rename_i ready
      obtain ⟨result, c', ran, next, length⟩ := readAuthLine_spec inv respStart
      rw [tryReadCommandAsciiauth, ran, Exec.ok_bind]
      cases result with
      | some result => exact ⟨c', rfl, next⟩
      | none =>
        obtain ⟨started, announced⟩ := length
        obtain ⟨result, ran, last⟩ := readAuthData_inv check next started
          (permits ready.1 ready.2 _ _ announced)
        exact ⟨result.2, by simp only [ran, Exec.ok_bind]; rfl, last⟩
    · exact ⟨c, rfl, inv⟩

theorem permits_of_step (inv : c.Inv) {e : Event} (ran : step check c e = .ok c') :
    Permits c e := by
  cases e with
  | receive bytes fresh => exact trivial
  | parse respStart =>
    intro live some size rest announced
    rw [step, if_pos ⟨live, some⟩] at ran
    obtain ⟨result, c₁, first, next, length⟩ := readAuthLine_spec inv respStart
    rw [tryReadCommandAsciiauth, first, Exec.ok_bind] at ran
    cases result with
    | some result => simp only [announced] at length; cases length
    | none =>
      obtain ⟨started, again⟩ := length
      obtain ⟨result, second, -⟩ := Exec.bind_eq_ok.mp ran
      rw [announced] at again
      cases again
      exact harmless_of_readAuthData next started second

/-- Whatever arrives, and in whatever pieces: the reader never counts bytes that are not there,
never leaves the buffer and touches only received bytes of its command where it looks for the
line end and cuts it off, exactly if each call that is given a length is given a harmless
one. -/
theorem auth_framing_iff (check : List UInt8 → List UInt8 → Bool) (fresh : Nat → UInt8)
    (events : List Event) : Always (step check) Conn.Safe (Conn.new fresh) events ↔
      Meets (step check) Permits (Conn.new fresh) events :=
  always_iff_meets (fun _ => Conn.Inv.safe) (fun _ _ inv => step_inv inv)
    (fun _ _ _ inv ran _ => permits_of_step inv ran) (Conn.inv_new fresh)

-- a login in two pieces
example : ∃ c, run (step fun user pass => user = text "u" ∧ pass = text "pw") (Conn.new fun _ => 0)
    [.receive (text "set foo 0 0 4\r\nu ") fun _ => 0, .parse true,
      .receive (text "pw\r\n") fun _ => 0, .parse true] = .ok c ∧
    c.authenticated = true ∧ c.rbytes = 0 := ⟨_, rfl, rfl, rfl⟩

/-- With the largest `int` as length and no data, the call moves `rcurr` to far before the buffer
and counts bytes that never came. The terminator check then reads there. -/
theorem auth_framing_overflow : ∃ c₁ c₂,
    run (step fun _ _ => false) (Conn.new fun _ => 0)
      [.receive (text "set foo 0 0 2147483647\r\n") fun _ => 0] = .ok c₁ ∧
    readAuthLine true c₁ = .ok (none, c₂) ∧ c₂.unread = 0 ∧
    c₂.advance.rbytes = 2147483647 ∧ c₂.advance.rcurr < 0 ∧
    step (fun _ _ => false) c₁ (.parse true) = .error .invalidAccess := by
  refine ⟨_, _, rfl, rfl, rfl, rfl, ?_, rfl⟩
  decide

end Kvsev.Connection.Auth
