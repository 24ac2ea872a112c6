import Kvsev.Connection.Machine

/-!
# What holds in every state of a connection

A command adds at least one response, and no more than its line has bytes. From this, and
from what the states of the machine leave behind, follows an invariant of all passes
through the loop. It says where the machine can stop, and what it then waits for.
-/

namespace Kvsev.Connection

open Server

/-! ## Commands -/

section

variable {σ ρ : Type} {h : Handlers σ ρ}

theorem tokenizeLoop_size (room : Nat) (word bs : List UInt8) :
    (tokenizeLoop room word bs).words.length + ((tokenizeLoop room word bs).rest.getD []).length ≤
      bs.length + (if word = [] then 0 else 1) := by
  induction bs generalizing room word with
  | nil =>
    rw [tokenizeLoop]
    split <;> simp
  | cons b bs ih =>
    rw [tokenizeLoop, List.length_cons]
    split
    · split
      · have later := ih room []
        rw [if_pos rfl] at later
        omega
      split
      · split
        · simp
        · simp
          omega
      · have later := ih (room - 1) []
        rw [if_pos rfl] at later
        simp only [List.length_cons]
        omega
    · have later := ih room (word ++ [b])
      rw [if_neg (by simp)] at later
      omega

theorem tokenizeCommand_size (command : List UInt8) :
    (tokenizeCommand command).words.length + ((tokenizeCommand command).rest.getD []).length ≤
      command.length := by
  have loop := tokenizeLoop_size (maxTokens - 1) [] (command.takeWhile (· ≠ 0))
  rw [if_pos rfl] at loop
  exact loop.trans (List.takeWhile_prefix _).length_le

theorem tokenizeLoop_rest {room : Nat} {word bs : List UInt8}
    (rest : (tokenizeLoop room word bs).rest ≠ none) :
    (tokenizeLoop room word bs).words ≠ [] ∧ (tokenizeLoop room word bs).rest ≠ some [] := by
  induction bs generalizing room word with
  | nil => exact absurd rfl rest
  | cons b bs ih =>
    rw [tokenizeLoop] at rest ⊢
    split at rest
    · rename_i blank
      rw [if_pos blank]
      split at rest
      · rename_i fresh
        rw [if_pos fresh]
        exact ih rest
      rename_i begun
      rw [if_neg begun]
      split at rest
      · rename_i last
        rw [if_pos last]
        refine ⟨List.cons_ne_nil _ _, ?_⟩
        split
        · exact (Option.some_ne_none []).symm
        · rename_i some_
          exact fun eq => some_ (Option.some.inj eq)
      · rename_i room_
        rw [if_neg room_]
        exact ⟨List.cons_ne_nil _ _, (ih rest).2⟩
    · rename_i letter
      rw [if_neg letter]
      exact ih rest

variable {returnCas : Bool} {touch : Option Nat} {keys : List Key} {hits : List (Option Hit)}

theorem Found.after_ok {found : Found} {first : List (Option Hit)}
    (ok : Found.after first found = .ok hits) :
    ∃ later, found = .ok later ∧ hits = first ++ later := by
  cases found with
  | error later => cases ok
  | ok later =>
    cases ok
    exact ⟨later, rfl, rfl⟩

theorem length_getKeys {s : σ} (found : (getKeys h returnCas touch s keys).1 = .ok hits) :
    hits.length = keys.length := by
  induction keys generalizing s hits with
  | nil =>
    cases found
    rfl
  | cons key keys ih =>
    rw [getKeys] at found
    split at found
    · cases found
    · obtain ⟨later, rest, rfl⟩ := Found.after_ok found
      rw [List.length_append, List.length_cons, ih rest, Nat.add_comm]
      rfl

theorem length_getBatch {s : σ} (found : (getBatch h returnCas touch s keys).1 = .ok hits) :
    hits.length = max 1 keys.length := by
  rw [getBatch] at found
  split at found
  · rename_i none
    cases found
    simp [none]
  · rename_i some_
    have pos := List.length_pos_iff.mpr some_
    have length := length_getKeys found
    omega

theorem tokenizeCommand_rest {command : List UInt8} : (tokenizeCommand command).rest ≠ some [] := by
  intro empty
  rw [tokenizeCommand] at empty
  exact (tokenizeLoop_rest (by rw [empty]; nofun)).2 empty

/-- A call of the tokenizer that finds no word leaves nothing. -/
theorem tokenizeCommand_max {bs : List UInt8} (nonempty : bs ≠ []) :
    max 1 (tokenizeCommand bs).words.length + ((tokenizeCommand bs).rest.getD []).length ≤
      bs.length := by
  have size := tokenizeCommand_size bs
  have pos := List.length_pos_iff.mpr nonempty
  cases rest : (tokenizeCommand bs).rest with
  | none =>
    rw [rest] at size
    simp only [Option.getD_none, List.length_nil] at size ⊢
    omega
  | some more =>
    rw [tokenizeCommand] at rest
    have words := List.length_pos_iff.mpr (tokenizeLoop_rest (by rw [rest]; nofun)).1
    rw [tokenizeCommand, rest] at size
    rw [tokenizeCommand]
    omega

/-- A `get` answers once for each key, and once where a call of the tokenizer finds
none. -/
theorem length_getBatches {more : Nat} {s : σ} {rest : Option (List UInt8)} (line : rest ≠ some [])
    (found : (getBatches h returnCas touch more s keys rest).1 = .ok hits) :
    0 < hits.length ∧ hits.length ≤ max 1 keys.length + (rest.getD []).length := by
  induction more generalizing s keys rest hits with
  | zero =>
    have length := length_getBatch found
    omega
  | succ more ih =>
    unfold getBatches at found
    split at found
    · rename_i here s' bs known
      obtain ⟨later, rest, rfl⟩ := Found.after_ok found
      have length := length_getBatch (congrArg Prod.fst known)
      have bound := ih tokenizeCommand_rest rest
      have size := tokenizeCommand_max fun empty => line (congrArg some empty)
      rw [List.length_append, Option.getD_some]
      omega
    · rename_i known _
      have length := length_getBatch ((congrArg Prod.fst known).trans found)
      omega

theorem length_getResps (hits : List (Option Hit)) :
    (getResps hits).length = hits.length := by
  induction hits with
  | nil => rfl
  | cons hit hits ih =>
    cases hits with
    | nil => rfl
    | cons hit' hits => exact congrArg (· + 1) ih

/-- A command that answers does so at least once, and not more often than its line is
long. Another thread gets the connection only when no response is waiting. -/
def Effect.Sound (stack : Bool) (size : Nat) : Effect ρ → Prop
  | .answer rs _ => 0 < rs.length ∧ rs.length ≤ size
  | .handOver _ => stack = false
  | _ => True

variable {size : Nat}

theorem Begun.effect_sound (begun : Begun ρ) (stack : Bool) (pos : 1 ≤ size) :
    begun.effect.Sound stack size := by
  cases begun with
  | refused r => exact ⟨Nat.one_pos, pos⟩
  | swallow r vlen | upload req vlen => exact trivial

theorem getAll_sound (s : σ) (returnCas stack : Bool) (touch : Option Nat)
    {rest : Option (List UInt8)} (line : rest ≠ some [])
    (bound : max 1 keys.length + (rest.getD []).length ≤ size) :
    (getAll h s returnCas touch keys rest).1.Sound stack size := by
  rw [getAll]
  dsimp only
  cases found : (getBatches h returnCas touch (rest.getD []).length s keys rest).1 with
  | error hits => exact trivial
  | ok hits =>
    have length := length_getBatches line found
    simp only [getEffect, Effect.Sound, length_getResps]
    omega

theorem processGetCommand_sound (s : σ) (returnCas touch stack : Bool) (command : List UInt8) :
    (processGetCommand h s returnCas touch (tokenizeCommand command)).1.Sound stack
      (command.length + 1) := by
  have size := tokenizeCommand_size command
  rw [processGetCommand]
  split
  · split
    · exact ⟨Nat.one_pos, Nat.le_add_left 1 _⟩
    · apply getAll_sound _ _ _ _ tokenizeCommand_rest
      rw [List.length_drop]
      omega
  · apply getAll_sound _ _ _ _ tokenizeCommand_rest
    rw [List.length_drop]
    omega

theorem processWatchCommand_sound (s : σ) (stack : Bool) (t : Tokens)
    (pos : 1 ≤ size) : (processWatchCommand h s stack t).1.Sound stack size := by
  rw [processWatchCommand]
  split
  · exact ⟨Nat.one_pos, pos⟩
  split
  · exact ⟨Nat.one_pos, pos⟩
  rename_i alone
  split
  · exact ⟨Nat.one_pos, pos⟩
  · exact Bool.eq_false_iff.mpr alone

theorem processMetadump_sound (s : σ) (stack : Bool) (t : Tokens)
    (pos : 1 ≤ size) : (processMetadump h s stack t).1.Sound stack size := by
  rw [processMetadump]
  split
  · exact ⟨Nat.one_pos, pos⟩
  split
  · exact ⟨Nat.one_pos, pos⟩
  split
  · exact ⟨Nat.one_pos, pos⟩
  rename_i alone
  split
  · exact ⟨Nat.one_pos, pos⟩
  · exact Bool.eq_false_iff.mpr alone

theorem processCommand_sound (s : σ) (traffic : Traffic) (stack : Bool) (command : List UInt8) :
    (processCommand h s traffic stack command).1.Sound stack (command.length + 1) := by
  have pos : 1 ≤ command.length + 1 := Nat.le_add_left 1 _
  rw [processCommand]
  split
  · exact processGetCommand_sound s _ _ stack command
  · exact Begun.effect_sound _ stack pos
  · exact Begun.effect_sound _ stack pos
  · exact ⟨Nat.one_pos, pos⟩
  · exact ⟨Nat.one_pos, pos⟩
  · split
    · exact ⟨Nat.one_pos, pos⟩
    · exact trivial
  · exact processMetadump_sound s stack _ pos
  · exact processWatchCommand_sound s stack _ pos
  · exact trivial
  · exact trivial
  · exact ⟨Nat.one_pos, pos⟩
  · exact ⟨Nat.one_pos, pos⟩

end

/-! ## The read buffer -/

section

variable {σ ρ : Type} {c c' c'' : Conn σ ρ}

/-- The bytes fit into the buffer. It has its usual size, unless it was allocated for a
long line. -/
structure Buffer (rbuf : List UInt8) (rsize : Nat) (rbufMalloced : Bool) : Prop where
  bounded : rbuf.length ≤ rsize
  usual : rbufMalloced = false → rsize = 0 ∨ rsize = readBufferSize
  malloced : rbufMalloced = true → 0 < rsize

theorem Buffer.of_length_le {rbuf rbuf' : List UInt8} {rsize : Nat} {rbufMalloced : Bool}
    (buffer : Buffer rbuf rsize rbufMalloced) (shorter : rbuf'.length ≤ rbuf.length) :
    Buffer rbuf' rsize rbufMalloced :=
  ⟨shorter.trans buffer.bounded, buffer.usual, buffer.malloced⟩

/-- From `c` to `c'` bytes went into the buffer, and the buffer may have grown. -/
structure Reads (c c' : Conn σ ρ) : Prop where
  stream : c'.rbuf ++ c'.input = c.rbuf ++ c.input
  fewer : c'.input.length ≤ c.input.length
  buffer : Buffer c.rbuf c.rsize c.rbufMalloced → Buffer c'.rbuf c'.rsize c'.rbufMalloced
  frame : ∃ rbuf rsize input traffic, c' = { c with rbuf, rsize, input, traffic }

theorem Reads.refl (c : Conn σ ρ) : Reads c c :=
  ⟨rfl, Nat.le_refl _, id, ⟨_, _, _, _, rfl⟩⟩

theorem Reads.trans (first : Reads c c') (second : Reads c' c'') : Reads c c'' where
  stream := second.stream.trans first.stream
  fewer := second.fewer.trans first.fewer
  buffer buffer := second.buffer (first.buffer buffer)
  frame := by
    obtain ⟨_, _, _, _, rfl⟩ := first.frame
    obtain ⟨rbuf, rsize, input, traffic, rfl⟩ := second.frame
    exact ⟨rbuf, rsize, input, traffic, rfl⟩

theorem reads_rbufAlloc (c : Conn σ ρ) : Reads c (rbufAlloc c) := by
  rw [rbufAlloc]
  split
  · rename_i none
    refine ⟨rfl, Nat.le_refl _, fun buffer => ?_, ⟨_, _, _, _, rfl⟩⟩
    have bounded := buffer.bounded
    refine ⟨by simp only; omega, fun _ => .inr rfl, fun _ => by simp [readBufferSize]⟩
  · exact Reads.refl _

theorem reads_grow (c : Conn σ ρ) (malloced : c.rbufMalloced = true) :
    Reads c { c with rsize := c.rsize * 2 } := by
  refine ⟨rfl, Nat.le_refl _, fun buffer => ?_, ⟨_, _, _, _, rfl⟩⟩
  have bounded := buffer.bounded
  have pos := buffer.malloced malloced
  refine ⟨by simp only; omega, fun usual => ?_, fun _ => by simp only; omega⟩
  simp only [malloced] at usual
  cases usual

theorem reads_readInto (c : Conn σ ρ) (k : Nat) :
    Reads c (readInto c (readable c.input (c.rsize - c.rbuf.length) k)) := by
  refine ⟨?_, ?_, fun buffer => ?_, ⟨_, _, _, _, rfl⟩⟩
  · simp only [readInto, List.append_assoc, List.take_append_drop]
  · simp only [readInto, List.length_drop]
    omega
  · have bounded := buffer.bounded
    refine ⟨?_, buffer.usual, buffer.malloced⟩
    simp only [readInto, readable, List.length_append, List.length_take]
    omega

theorem reads_readMore (allocs : Nat) (c : Conn σ ρ) (k : Nat)
    (malloced : c.rbufMalloced = true) : Reads c (readMore allocs c k) := by
  induction allocs generalizing c k with
  | zero => exact Reads.refl _
  | succ allocs ih =>
    have grown := reads_grow c malloced
    have filled := reads_readInto { c with rsize := c.rsize * 2 } k
    rw [readMore]
    split
    · exact (grown.trans filled).trans (ih _ _ malloced)
    · exact grown.trans filled

end

/-! ## The states -/

section

variable {σ ρ : Type} {h : Handlers σ ρ} {c c' : Conn σ ρ} {k : Nat}

/-- The buffer holds the beginning of a line, and nothing is to be sent. -/
structure Quiet (c : Conn σ ρ) : Prop where
  resps : c.resps = []
  partial_ : 10 ∉ c.rbuf
  short : 1024 < c.rbuf.length → c.rbufMalloced = true

/-- The machine has stopped to wait for bytes of a value. -/
def Starved (c : Conn σ ρ) (left : Nat) : Prop :=
  0 < left ∧ c.rbuf = [] ∧ c.interest = .read

/-- What holds in the states of the machine. -/
def InState (c : Conn σ ρ) : Prop :=
  match c.state with
  | .newCmd => c.stop = true → unsent c.resps = []
  | .waiting => c.stop = false ∧ Quiet c
  | .read => Quiet c ∧ (c.stop = true → c.interest = .read)
  | .parseCmd => c.stop = false
  | .nread _ _ left => (∃ front, c.resps = front ++ [Resp.empty]) ∧ (c.stop = true → Starved c left)
  | .swallow left => 0 < c.rsize ∧ c.resps ≠ [] ∧ (c.stop = true → Starved c left)
  | .mwrite => c.resps ≠ [] ∧ (c.stop = true → c.interest = .write)
  | .closing => c.stop = false
  | .closed => c.resps = []
  | .watch _ => c.resps = [Resp.empty]

/-- The states after the last command of a connection. -/
def ConnState.isLast : ConnState ρ → Bool
  | .mwrite | .closing | .closed => true
  | _ => false

/-- The invariant of the machine. -/
structure Inv (c : Conn σ ρ) : Prop where
  buffer : Buffer c.rbuf c.rsize c.rbufMalloced
  inState : InState c
  closes : c.state.isLast = false → c.closeAfterWrite = false

theorem Inv.new (s : σ) (input : List UInt8) : Inv (Conn.new s input : Conn σ ρ) :=
  ⟨⟨Nat.le_refl 0, fun _ => .inl rfl, nofun⟩, fun _ => rfl, fun _ => rfl⟩

theorem Inv.begun {req : ρ} {data : List UInt8} {left : Nat} (inv : Inv c)
    (state : c.state = .nread req data left) : ∃ front, c.resps = front ++ [Resp.empty] := by
  have here := inv.inState
  rw [InState, state] at here
  exact here.1

theorem not_stopped {p : Prop} (go : c.stop = false) (stop : c.stop = true) : p := by
  rw [go] at stop
  cases stop

theorem readable_le (input : List UInt8) (room k : Nat) :
    readable input room k ≤ room ∧ readable input room k ≤ input.length := by
  rw [readable]
  omega

theorem readable_eq_zero_iff {input : List UInt8} {room k : Nat} (pos : 0 < room) :
    readable input room k = 0 ↔ k = 0 ∨ input = [] := by
  rw [← List.length_eq_zero_iff, readable]
  omega

/-! ## What a pass can do -/

/-- Of the bytes of a value, `taken` were read: first those of the buffer, and then those of the
socket. -/
structure Takes (c : Conn σ ρ) (rbuf input taken : List UInt8) (left : Nat) : Prop where
  stream : c.rbuf ++ c.input = taken ++ (rbuf ++ input)
  shorter : rbuf.length ≤ c.rbuf.length
  fewer : input.length ≤ c.input.length
  bound : taken.length ≤ left
  pos : 0 < taken.length

/-- The outcomes of a pass, with what is known of each. -/
inductive Moves (h : Handlers σ ρ) (c : Conn σ ρ) (k : Nat) : Conn σ ρ → Prop where
  | parse (state : c.state = .newCmd) (some_ : c.rbuf ≠ []) (nreqs : Nat) :
      Moves h c k { c with nreqs, state := .parseCmd }
  | flush (state : c.state = .newCmd) (queued : c.resps ≠ []) (nreqs : Nat) :
      Moves h c k { c with nreqs, state := .mwrite }
  | rest (state : c.state = .newCmd) (empty : c.rbuf = []) (none : c.resps = []) (nreqs : Nat) :
      Moves h c k { c with nreqs, state := .waiting }
  | yield (state : c.state = .newCmd) (zero : c.nreqs = 0) (none : c.resps = []) :
      Moves h c k
        { c with interest := if c.rbuf ≠ [] then .write else c.interest, stop := true }
  | wait {rsize : Nat} {rbufMalloced : Bool} (state : c.state = .waiting)
      (buffer : Buffer c.rbuf c.rsize c.rbufMalloced → Buffer c.rbuf rsize rbufMalloced)
      (short : 1024 < c.rbuf.length → rbufMalloced = c.rbufMalloced) :
      Moves h c k
        { c with rsize, rbufMalloced, interest := .read, state := .read, stop := true }
  | dry {d : Conn σ ρ} (state : c.state = .read) (reads : Reads c d) (same : d.rbuf = c.rbuf)
      (none : k = 0 ∨ c.input = []) : Moves h c k { d with state := .waiting }
  | got {d : Conn σ ρ} (state : c.state = .read) (reads : Reads c d)
      (less : d.input.length < c.input.length) : Moves h c k { d with state := .parseCmd }
  | refuse (state : c.state = .parseCmd) (none : splitLine c.rbuf = none)
      (long : 1024 < c.rbuf.length ∧ ¬beginsMultiget c.rbuf = true) :
      Moves h c k { c with state := .closing }
  | more {rsize : Nat} {rbufMalloced : Bool} (state : c.state = .parseCmd)
      (none : splitLine c.rbuf = none)
      (buffer : Buffer c.rbuf c.rsize c.rbufMalloced → Buffer c.rbuf rsize rbufMalloced)
      (long : 1024 < c.rbuf.length → rbufMalloced = true) :
      Moves h c k
        { c with rsize, rbufMalloced, state := if c.resps = [] then .waiting else .mwrite }
  | command {line rest : List UInt8} {effect : Effect ρ} {store : σ} (state : c.state = .parseCmd)
      (split : splitLine c.rbuf = some (line, rest))
      (ran : processCommand h c.store c.traffic (!c.resps.isEmpty) (chomp line) = (effect, store)) :
      Moves h c k (Conn.apply h { c with store, rbuf := rest } effect)
  | complete {req : ρ} {data : List UInt8} (state : c.state = .nread req data 0) :
      Moves h c k (completeNread h c req data)
  | data {req : ρ} {data taken rbuf input : List UInt8} {left : Nat} {traffic : Traffic}
      (state : c.state = .nread req data left) (takes : Takes c rbuf input taken left) :
      Moves h c k
        { c with
          rbuf, input, traffic, state := .nread req (data ++ taken) (left - taken.length) }
  | starve {req : ρ} {data : List UInt8} {left : Nat} (state : c.state = .nread req data left)
      (short : c.rbuf.length < left) (none : k = 0 ∨ c.input = []) :
      Moves h c k (blockRead
        { c with rbuf := [], state := .nread req (data ++ c.rbuf) (left - c.rbuf.length) })
  | skipped (state : c.state = .swallow 0) : Moves h c k { c with state := .newCmd }
  | skip {taken rbuf input : List UInt8} {left : Nat} {traffic : Traffic}
      (state : c.state = .swallow left) (takes : Takes c rbuf input taken left) :
      Moves h c k { c with rbuf, input, traffic, state := .swallow (left - taken.length) }
  | thirst {left : Nat} (state : c.state = .swallow left) (pos : 0 < left) (empty : c.rbuf = [])
      (none : k = 0 ∨ c.input = []) : Moves h c k (blockRead c)
  | sent {out : Output} {more : List UInt8} (state : c.state = .mwrite)
      (progress : Progress c.resps more out.resps) (sent : out.sent = c.sent ++ more)
      (done : out.resps = []) : Moves h c k (sentAll h (c.withOutput h out))
  | part {out : Output} {more : List UInt8} (state : c.state = .mwrite)
      (progress : Progress c.resps more out.resps) (sent : out.sent = c.sent ++ more)
      (left : out.resps ≠ []) (falls : out.left < (Output.mk c.resps c.sent).left) :
      Moves h c k (c.withOutput h out)
  | full (state : c.state = .mwrite) (zero : k = 0) :
      Moves h c k { c with interest := .write, stop := true }
  | close (state : c.state = .closing) : Moves h c k (closing h c)
  | ended (state : c.state = .closed ∨ ∃ dump, c.state = .watch dump) :
      Moves h c k { c with stop := true }

theorem moves_newCmd (state : c.state = .newCmd) : Moves h c k (newCmd c) := by
  by_cases budget : 0 < c.nreqs
  · rw [newCmd, if_pos budget, resetCmdHandler]
    split
    · rename_i some_
      exact .parse state some_ _
    split
    · rename_i queued
      exact .flush state queued _
    · rename_i empty none
      exact .rest state (of_not_not empty) (of_not_not none) _
  rw [newCmd, if_neg budget]
  split
  · rename_i queued
    exact .flush state queued c.nreqs
  · rename_i empty
    exact .yield state (Nat.eq_zero_of_not_pos budget) (of_not_not empty)

theorem moves_waiting (state : c.state = .waiting) : Moves h c k (waiting c) := by
  rw [waiting, rbufRelease]
  split
  · rename_i empty
    refine .wait state (fun _ => ⟨?_, fun _ => .inl rfl, nofun⟩) fun long => ?_
    · simp [empty]
    · simp [empty] at long
  · exact .wait state id fun _ => rfl

/-- A `read` into the buffer always finds room: a line that is longer than the usual buffer
has another one. -/
theorem read_room (inv : Inv c) (quiet : Quiet c) : let c := rbufAlloc c
    let c := if c.rsize ≤ c.rbuf.length ∧ c.rbufMalloced then { c with rsize := c.rsize * 2 } else c
    0 < c.rsize - c.rbuf.length := by
  have buffer := (reads_rbufAlloc c).buffer inv.buffer
  have pos : 0 < (rbufAlloc c).rsize := by
    rw [rbufAlloc]
    split
    · simp [readBufferSize]
    · rename_i some_
      exact Nat.pos_of_ne_zero some_
  obtain ⟨rbuf, malloced⟩ : (rbufAlloc c).rbuf = c.rbuf ∧
      (rbufAlloc c).rbufMalloced = c.rbufMalloced := by
    rw [rbufAlloc]
    split <;> exact ⟨rfl, rfl⟩
  have bounded := buffer.bounded
  intro c₁ c₂
  by_cases full : c₁.rsize ≤ c₁.rbuf.length ∧ c₁.rbufMalloced
  · have eq : c₂ = { c₁ with rsize := c₁.rsize * 2 } := if_pos full
    rw [eq]
    simp only [c₁] at full ⊢
    omega
  have eq : c₂ = c₁ := if_neg full
  rw [eq]
  by_cases large : c.rbufMalloced = true
  · rw [malloced.trans large] at full
    simp only [and_true] at full
    omega
  have size := buffer.usual (malloced.trans (Bool.eq_false_iff.mpr large))
  have short : c.rbuf.length ≤ 1024 := by
    by_contra long
    exact large (quiet.short (by omega))
  simp only [readBufferSize] at size
  simp only [c₁, rbuf]
  omega

/-- `conn_read` goes back to waiting if there is nothing to read, and else reads something. -/
theorem moves_read (inv : Inv c) (state : c.state = .read) (k : Nat) :
    Moves h c k (read c k) := by
  have here := inv.inState
  rw [InState, state] at here
  have room := read_room inv here.1
  have alloc := reads_rbufAlloc c
  obtain ⟨input, rbuf⟩ : (rbufAlloc c).input = c.input ∧ (rbufAlloc c).rbuf = c.rbuf := by
    rw [rbufAlloc]
    split <;> exact ⟨rfl, rfl⟩
  simp only [read] at room ⊢
  generalize rbufAlloc c = c₁ at room alloc input rbuf ⊢
  -- The buffer as it is when `read` is called.
  obtain ⟨c₂, eq, grown, sameInput, sameRbuf⟩ :
      ∃ c₂, (if c₁.rsize ≤ c₁.rbuf.length ∧ c₁.rbufMalloced then
          { c₁ with rsize := c₁.rsize * 2 } else c₁) = c₂ ∧
        Reads c₁ c₂ ∧ c₂.input = c.input ∧ c₂.rbuf = c.rbuf := by
    refine ⟨_, rfl, ?_⟩
    split
    · rename_i full
      exact ⟨reads_grow c₁ full.2, input, rbuf⟩
    · exact ⟨Reads.refl _, input, rbuf⟩
  rw [eq] at room ⊢
  generalize (if c₁.rsize ≤ c₁.rbuf.length ∧ c₁.rbufMalloced = true then 3 else 4) = allocs
  have upto := alloc.trans grown
  rw [if_neg (Nat.ne_of_gt room)]
  split
  · rename_i nothing
    rw [sameInput, readable_eq_zero_iff room] at nothing
    exact .dry state upto sameRbuf nothing
  rename_i something
  have filled := upto.trans (reads_readInto c₂ k)
  have less : (readInto c₂ (readable c₂.input (c₂.rsize - c₂.rbuf.length) k)).input.length <
      c.input.length := by
    simp only [readInto, List.length_drop, sameInput]
    simp only [readable, sameInput] at something ⊢
    omega
  split
  · rename_i more
    have rest := reads_readMore allocs
      (readInto c₂ (readable c₂.input (c₂.rsize - c₂.rbuf.length) k))
      (k - readable c₂.input (c₂.rsize - c₂.rbuf.length) k) more.2
    exact .got state (filled.trans rest) (rest.fewer.trans_lt less)
  · exact .got state filled less

theorem moves_parseCmd (state : c.state = .parseCmd) : Moves h c k (parseCmd h c) := by
  rw [parseCmd]
  split
  · rename_i none
    split
    · rename_i long
      exact .refuse state none long
    by_cases long : 1024 < c.rbuf.length
    · rw [if_pos long, rbufSwitchToMalloc]
      split
      · rename_i already
        exact .more state none id fun _ => already
      · refine .more state none (fun buffer => ?_) fun _ => rfl
        have bounded := buffer.bounded
        exact ⟨by simp only; omega, nofun, fun _ => by simp only; omega⟩
    · rw [if_neg long]
      exact .more state none id fun over_ => absurd over_ long
  · rename_i line rest split
    exact .command state split rfl

variable {req : ρ} {data : List UInt8} {left : Nat}

theorem nread_blocked (short : c.rbuf.length < left) (blocked : k = 0 ∨ c.input = []) :
    nread c req data left k =
      blockRead
        { c with rbuf := [], state := .nread req (data ++ c.rbuf) (left - c.rbuf.length) } := by
  have all : min c.rbuf.length left = c.rbuf.length := Nat.min_eq_left short.le
  have nothing := (readable_eq_zero_iff (Nat.sub_pos_of_lt short)).mpr blocked
  simp only [nread, all, List.take_length, List.drop_length, nothing, if_true]
  rw [if_neg (by omega)]

theorem swallow_blocked (empty : c.rbuf = []) (room : 0 < c.rsize) (pos : 0 < left)
    (blocked : k = 0 ∨ c.input = []) : swallow c left k = blockRead c := by
  have nothing := (readable_eq_zero_iff (Nat.lt_min.mpr ⟨room, pos⟩)).mpr blocked
  rw [swallow, if_neg (not_not_intro empty)]
  simp only [nothing, if_true]
  rw [if_neg (by omega)]

/-- Bytes of the buffer. -/
theorem takes_buffer (some_ : c.rbuf ≠ []) (pos : 0 < left) :
    Takes c (c.rbuf.drop (min c.rbuf.length left)) c.input
      (c.rbuf.take (min c.rbuf.length left)) left := by
  have length := List.length_pos_iff.mpr some_
  refine ⟨?_, ?_, Nat.le_refl _, ?_, ?_⟩
  · rw [← List.append_assoc, List.take_append_drop]
  all_goals
    simp only [List.length_drop, List.length_take]
    omega

/-- All bytes of the buffer and some of the socket. -/
theorem takes_socket {res : Nat} (some_ : 0 < res) (most : res ≤ c.input.length)
    (bound : c.rbuf.length + res ≤ left) :
    Takes c [] (c.input.drop res) (c.rbuf ++ c.input.take res) left := by
  refine ⟨?_, Nat.zero_le _, ?_, ?_, ?_⟩
  · rw [List.append_assoc, List.nil_append, List.take_append_drop]
  all_goals
    simp only [List.length_append, List.length_drop, List.length_take]
    omega

theorem moves_nread (state : c.state = .nread req data left) (pos : 0 < left) :
    Moves h c k (nread c req data left k) := by
  by_cases enough : left ≤ c.rbuf.length
  · have all : min c.rbuf.length left = left := Nat.min_eq_right enough
    have some_ : c.rbuf ≠ [] := List.length_pos_iff.mp (by omega)
    have takes := takes_buffer some_ pos
    have moves : Moves h c k { c with rbuf := _, input := _, traffic := c.traffic, state := _ } :=
      .data state takes
    simp only [nread, all, Nat.sub_self, if_true]
    simpa only [all, List.length_take_of_le enough, Nat.sub_self] using moves
  have short : c.rbuf.length < left := Nat.lt_of_not_le enough
  by_cases blocked : k = 0 ∨ c.input = []
  · rw [nread_blocked short blocked]
    exact .starve state short blocked
  have all : min c.rbuf.length left = c.rbuf.length := Nat.min_eq_left short.le
  have something := mt (readable_eq_zero_iff (Nat.sub_pos_of_lt short)).mp blocked
  obtain ⟨fits, most⟩ := readable_le c.input (left - c.rbuf.length) k
  simp only [nread, all, List.take_length, List.drop_length, something, if_false]
  rw [if_neg (by omega)]
  have takes : Takes c [] _ _ left :=
    takes_socket (Nat.pos_of_ne_zero something) most (by omega)
  have moves : Moves h c k { c with
      rbuf := _, input := _, traffic := ⟨c.traffic.bytesRead +
        readable c.input (left - c.rbuf.length) k, c.traffic.bytesWritten⟩, state := _ } :=
    .data state takes
  simpa only [List.length_append, List.length_take_of_le most, List.append_assoc,
    Nat.sub_sub] using moves

theorem moves_swallow (inv : Inv c) (state : c.state = .swallow left) (pos : 0 < left) :
    Moves h c k (swallow c left k) := by
  have here := inv.inState
  rw [InState, state] at here
  by_cases empty : c.rbuf = []
  · by_cases blocked : k = 0 ∨ c.input = []
    · rw [swallow_blocked empty here.1 pos blocked]
      exact .thirst state pos empty blocked
    have room : 0 < min c.rsize left := Nat.lt_min.mpr ⟨here.1, pos⟩
    have something := mt (readable_eq_zero_iff room).mp blocked
    obtain ⟨fits, most⟩ := readable_le c.input (min c.rsize left) k
    rw [swallow, if_neg (not_not_intro empty)]
    simp only [something, if_false]
    rw [if_neg (Nat.ne_of_gt room)]
    have takes : Takes c [] _ _ left :=
      takes_socket (Nat.pos_of_ne_zero something) most (by rw [empty, List.length_nil]; omega)
    have moves : Moves h c k { c with
        rbuf := _, input := _, traffic := ⟨c.traffic.bytesRead +
          readable c.input (min c.rsize left) k, c.traffic.bytesWritten⟩, state := _ } :=
      .skip state takes
    simpa only [empty, List.nil_append, List.length_take_of_le most] using moves
  · have moves : Moves h c k { c with rbuf := _, input := _, traffic := c.traffic, state := _ } :=
      .skip state (takes_buffer empty pos)
    rw [swallow, if_pos empty]
    simpa only [List.length_take_of_le (Nat.min_le_left _ _)] using moves

theorem withOutput_self (c : Conn σ ρ) : c.withOutput h ⟨c.resps, c.sent⟩ = c := by
  simp [Conn.withOutput, released]

/-- `conn_mwrite` goes on when all is sent, and stops where the socket has no room. -/
theorem moves_mwrite (state : c.state = .mwrite) : Moves h c k (mwrite h c k) := by
  obtain ⟨more, sent, progress⟩ :=
    progress_transmit ⟨c.resps, c.sent⟩ (if k = 0 then none else some k)
  rw [mwrite]
  split
  · rename_i out pair
    rw [pair] at sent progress
    have done := (transmit_complete_iff _ _).mp (congrArg Prod.snd pair)
    rw [pair] at done
    exact .sent state progress sent done
  · rename_i out pair
    obtain ⟨some_, queued, left⟩ := transmit_incomplete (congrArg Prod.snd pair)
    have pos : ¬k = 0 := fun zero => some_ (if_pos zero)
    have falls := left_transmit_lt (Nat.pos_of_ne_zero pos) queued
    rw [pair] at sent progress left
    rw [if_neg pos] at pair
    rw [pair] at falls
    exact .part state progress sent left falls
  · rename_i out pair
    obtain ⟨none, same⟩ := transmit_softError (congrArg Prod.snd pair)
    have zero : k = 0 := by
      by_contra pos
      rw [if_neg pos] at none
      cases none
    rw [pair] at same
    obtain rfl : out = ⟨c.resps, c.sent⟩ := same
    rw [withOutput_self]
    exact .full state zero

theorem advance_moves (inv : Inv c) (k : Nat) : Moves h c k (advance h c k) := by
  rw [advance]
  split
  · rename_i state
    exact moves_newCmd state
  · rename_i state
    exact moves_waiting state
  · rename_i state
    exact moves_read inv state k
  · rename_i state
    exact moves_parseCmd state
  · rename_i state
    exact .complete state
  · rename_i state
    exact moves_nread state (Nat.succ_pos _)
  · rename_i state
    exact .skipped state
  · rename_i state
    exact moves_swallow inv state (Nat.succ_pos _)
  · rename_i state
    exact moves_mwrite state
  · rename_i state
    exact .close state
  · rename_i state
    exact .ended (.inl state)
  · rename_i state
    exact .ended (.inr ⟨_, state⟩)

/-- The outcomes of a pass through the loop, also for a connection that has stopped. -/
inductive Passes (h : Handlers σ ρ) (limits : Limits) (c : Conn σ ρ) (k : Nat) :
    Conn σ ρ → Prop where
  | idle (stopped : c.stop = true)
      (waits : ¬ready c k ∨ c.state = .closed ∨ c.state = .watch none) : Passes h limits c k c
  | back {dump : List UInt8} (state : c.state = .watch (some dump)) (stopped : c.stop = true)
      (event : 0 < k) : Passes h limits c k (connWorkerReadd c dump)
  | wake (stopped : c.stop = true) (event : ready c k) :
      Passes h limits c k (advance h (wake limits c) k)
  | go (go : c.stop = false) : Passes h limits c k (advance h c k)

theorem pass_passes (h : Handlers σ ρ) (limits : Limits) (c : Conn σ ρ) (k : Nat) :
    Passes h limits c k (pass h limits c k) := by
  rw [pass]
  split
  · rename_i stopped
    rw [resume]
    split
    · rename_i dump state
      split
      · rename_i zero
        exact .idle stopped (.inl fun event => absurd event.1 (zero ▸ Nat.lt_irrefl 0))
      · rename_i event
        exact .back state stopped (Nat.pos_of_ne_zero event)
    · rename_i state
      exact .idle stopped (.inr (.inr state))
    · rename_i state
      exact .idle stopped (.inr (.inl state))
    · split
      · rename_i event
        exact .wake stopped event
      · rename_i waits
        exact .idle stopped (.inl waits)
  · rename_i go
    exact .go (Bool.eq_false_iff.mpr go)

/-! ## Runs -/

theorem inv_apply {effect : Effect ρ} {size : Nat} (buffer : Buffer c.rbuf c.rsize c.rbufMalloced)
    (go : c.stop = false) (closes : c.closeAfterWrite = false) (some_ : 0 < c.rsize)
    (sound : effect.Sound (!c.resps.isEmpty) size) : Inv (c.apply h effect) := by
  have more (r : Resp) : c.resps ++ [r] ≠ [] :=
    List.append_ne_nil_of_right_ne_nil _ (List.cons_ne_nil _ _)
  cases effect with
  | answer rs flush =>
    cases flush with
    | true =>
      refine ⟨buffer, ⟨?_, not_stopped go⟩, nofun⟩
      exact List.append_ne_nil_of_right_ne_nil _ (List.length_pos_iff.mp sound.1)
    | false => exact ⟨buffer, not_stopped go, fun _ => closes⟩
  | kill begun r => exact ⟨buffer, not_stopped go, fun _ => closes⟩
  | upload req vlen => exact ⟨buffer, ⟨⟨c.resps, rfl⟩, not_stopped go⟩, fun _ => closes⟩
  | swallow r vlen => exact ⟨buffer, ⟨some_, more r, not_stopped go⟩, fun _ => closes⟩
  | quit => exact ⟨buffer, ⟨more _, not_stopped go⟩, nofun⟩
  | close => exact ⟨buffer, go, nofun⟩
  | handOver dump =>
    have alone : c.resps = [] := by simpa [Effect.Sound] using sound
    refine ⟨buffer, ?_, fun _ => closes⟩
    simp only [Conn.apply, InState, alone]
    rfl

theorem inv_moves (inv : Inv c) (go : c.stop = false) (moves : Moves h c k c') : Inv c' := by
  obtain ⟨buffer, here, closes⟩ := inv
  rw [InState] at here
  cases moves with
  | parse state some_ nreqs => exact ⟨buffer, go, fun _ => closes (by rw [state]; rfl)⟩
  | flush state queued nreqs => exact ⟨buffer, ⟨queued, not_stopped go⟩, nofun⟩
  | rest state empty none nreqs =>
    refine ⟨buffer, ⟨go, none, ?_, ?_⟩, fun _ => closes (by rw [state]; rfl)⟩
    · simp [empty]
    · simp [empty]
  | yield state zero none =>
    refine ⟨buffer, ?_, closes⟩
    simp only [InState, state, none]
    exact fun _ => rfl
  | wait state buffer' short =>
    rw [state] at here closes
    refine ⟨buffer' buffer, ⟨⟨here.2.resps, here.2.partial_, ?_⟩, fun _ => rfl⟩,
      fun _ => closes rfl⟩
    exact fun long => (short long).trans (here.2.short long)
  | dry state reads same none =>
    rw [state] at here closes
    have buffer := reads.buffer buffer
    obtain ⟨_, _, _, _, rfl⟩ := reads.frame
    obtain rfl := same
    exact ⟨buffer, ⟨go, here.1.resps, here.1.partial_, here.1.short⟩, fun _ => closes rfl⟩
  | got state reads less =>
    rw [state] at closes
    have buffer := reads.buffer buffer
    obtain ⟨_, _, _, _, rfl⟩ := reads.frame
    exact ⟨buffer, go, fun _ => closes rfl⟩
  | refuse state none long => exact ⟨buffer, go, nofun⟩
  | more state none buffer' long =>
    rw [state] at closes
    refine ⟨buffer' buffer, ?_, fun _ => closes rfl⟩
    by_cases queued : c.resps = []
    · simp only [InState, queued, if_true]
      exact ⟨go, rfl, splitLine_none.mp none, long⟩
    · simp only [InState, queued, if_false]
      exact ⟨queued, not_stopped go⟩
  | @command line rest effect store state split ran =>
    rw [state] at closes
    have sound := processCommand_sound (h := h) c.store c.traffic (!c.resps.isEmpty) (chomp line)
    rw [ran] at sound
    have length : c.rbuf.length = line.length + (rest.length + 1) := by
      rw [(splitLine_some split).1, List.length_append, List.length_cons]
    have bounded := buffer.bounded
    exact inv_apply (c := { c with store, rbuf := rest })
      (buffer.of_length_le (by simp only; omega)) go (closes rfl) (by simp only; omega) sound
  | complete state => exact ⟨buffer, not_stopped go, fun _ => closes (by rw [state]; rfl)⟩
  | data state takes =>
    rw [state] at here closes
    exact ⟨buffer.of_length_le takes.shorter, ⟨here.1, not_stopped go⟩, fun _ => closes rfl⟩
  | starve state short none =>
    rw [state] at here closes
    exact ⟨buffer.of_length_le (Nat.zero_le _),
      ⟨here.1, fun _ => ⟨Nat.sub_pos_of_lt short, rfl, rfl⟩⟩, fun _ => closes rfl⟩
  | skipped state => exact ⟨buffer, not_stopped go, fun _ => closes (by rw [state]; rfl)⟩
  | skip state takes =>
    rw [state] at here closes
    exact ⟨buffer.of_length_le takes.shorter, ⟨here.1, here.2.1, not_stopped go⟩,
      fun _ => closes rfl⟩
  | thirst state pos empty none =>
    rw [state] at here
    refine ⟨buffer, ?_, closes⟩
    simp only [blockRead, InState, state]
    exact ⟨here.1, here.2.1, fun _ => ⟨pos, empty, rfl⟩⟩
  | sent state progress sent done =>
    rw [sentAll]
    cases last : (c.withOutput h _).closeAfterWrite with
    | true => exact ⟨buffer, go, nofun⟩
    | false => exact ⟨buffer, not_stopped go, fun _ => last⟩
  | part state progress sent left falls =>
    refine ⟨buffer, ?_, closes⟩
    simp only [Conn.withOutput, InState, state]
    exact ⟨left, not_stopped go⟩
  | full state zero =>
    rw [state] at here
    refine ⟨buffer, ?_, closes⟩
    simp only [InState, state]
    exact ⟨here.1, fun _ => trivial⟩
  | close state =>
    exact ⟨⟨Nat.zero_le _, buffer.usual, buffer.malloced⟩, rfl, nofun⟩
  | ended state =>
    refine ⟨buffer, ?_, closes⟩
    obtain state | ⟨dump, state⟩ := state
    · simpa only [InState, state] using here
    · simpa only [InState, state] using here

theorem inv_wake (limits : Limits) (inv : Inv c) : Inv (wake limits c) := by
  refine ⟨inv.buffer, ?_, inv.closes⟩
  have here := inv.inState
  rw [InState] at here
  simp only [InState, wake]
  split at here
  · exact nofun
  · exact ⟨trivial, here.2.resps, here.2.partial_, here.2.short⟩
  · exact ⟨⟨here.1.resps, here.1.partial_, here.1.short⟩, nofun⟩
  · trivial
  · exact ⟨here.1, nofun⟩
  · exact ⟨here.1, here.2.1, nofun⟩
  · exact ⟨here.1, nofun⟩
  · trivial
  · exact here
  · exact here

theorem inv_passes {limits : Limits} (inv : Inv c) (passes : Passes h limits c k c') : Inv c' := by
  cases passes with
  | idle stopped waits => exact inv
  | back state stopped event =>
    have here := inv.inState
    have closes := inv.closes
    rw [InState, state] at here
    rw [state] at closes
    refine ⟨inv.buffer, fun _ => ?_, fun _ => closes rfl⟩
    rw [connWorkerReadd, here]
    rfl
  | wake stopped event =>
    have woken := inv_wake limits inv
    exact inv_moves woken rfl (advance_moves woken k)
  | go go => exact inv_moves inv go (advance_moves inv k)

end

end Kvsev.Connection
