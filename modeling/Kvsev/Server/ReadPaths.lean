import Kvsev.Server.Operations

/-!
# The three read paths and a changed value

A value can be read with the text retrieval commands, with the meta command `mg`
and with the binary protocol. Only the first looks at the tree, and it asks about
the stored code, prints a line when the answer is no, and sends the value in any
case. No path computes the code of what it sends.
-/

namespace Kvsev.Server

open Cmac Memory

/-! ## The meta command -/

/-- The flags of `mg`, with what `_meta_flag_preparse` makes of their arguments. -/
inductive MetaFlag where
  | newTtl (exptime : Nat)
  | vivify (exptime : Nat)
  | recache (time : Nat)
  | size
  | ttl
  | cas
  | clientFlags
  | lastAccess
  | hit
  | key
  | opaqueToken (token : List UInt8)
  | value
  | noUpdate
  | noReply
  deriving DecidableEq, Repr

namespace MetaFlag

/-- The character that introduces a flag. -/
def letter : MetaFlag → Char
  | newTtl _ => 'T'
  | vivify _ => 'N'
  | recache _ => 'R'
  | size => 's'
  | ttl => 't'
  | cas => 'c'
  | clientFlags => 'f'
  | lastAccess => 'l'
  | hit => 'h'
  | key => 'k'
  | opaqueToken _ => 'O'
  | value => 'v'
  | noUpdate => 'u'
  | noReply => 'q'

/-- Flags for which the item stays locked. -/
def locks : MetaFlag → Bool
  | newTtl _ | vivify _ | recache _ | lastAccess | hit => true
  | _ => false

def vivifies : MetaFlag → Bool
  | vivify _ => true
  | _ => false

def tooLong : MetaFlag → Bool
  | opaqueToken token => mflagMaxOpaqueLength < token.length
  | _ => false

end MetaFlag

/-- What an answer to `mg` tells about the item. -/
inductive MetaField where
  | size (n : Nat)
  | ttl (remaining : Option Nat)
  | cas (n : Nat)
  | clientFlags (n : Nat)
  | lastAccess (age : Nat)
  | hit (before : Bool)
  | key (key : Key)
  | opaqueToken (token : List UInt8)
  | tokenSent
  | stale
  | win
  deriving DecidableEq, Repr

/-- What `mg` needs from outside: memory for a new item, whether a hit moves the
item's time, and whether the item was hit before. -/
structure MetaInput where
  alloc : ItemAlloc
  bump : Bool
  fetched : Bool

/-- The difference of two times, which has 32 bits. -/
def u32Sub (a b : Nat) : Nat := (a + (2 ^ 32 - b % 2 ^ 32)) % 2 ^ 32

/-- The loop of `process_mget_command` over the flags, on one item. -/
def metaFields (s : State) (created fetched : Bool) :
    Item → Bool → List MetaFlag → Item × Bool × List MetaField
  | it, won, [] => (it, won, [])
  | it, won, flag :: flags =>
    let emit (field : MetaField) :=
      let (it, won, fields) := metaFields s created fetched it won flags
      (it, won, field :: fields)
    match flag with
    | .newTtl exptime => metaFields s created fetched { it with exptime } won flags
    | .vivify exptime =>
      if created then metaFields s created fetched { it with exptime } true flags
      else metaFields s created fetched it won flags
    | .recache time =>
      let wins := ¬it.tokenSent ∧ ¬created ∧ it.exptime ≠ 0 ∧ it.exptime < time
      metaFields s created fetched it (won || wins) flags
    | .size => emit (.size (it.nbytes - 2))
    | .ttl => emit (.ttl (if it.exptime = 0 then none else some (u32Sub it.exptime s.currentTime)))
    | .cas => emit (.cas (itemGetCas s it))
    | .clientFlags => emit (.clientFlags it.flags)
    | .lastAccess => emit (.lastAccess (u32Sub s.currentTime it.time))
    | .hit => emit (.hit fetched)
    | .key => emit (.key it.key)
    | .opaqueToken token => emit (.opaqueToken token)
    | .value | .noUpdate | .noReply => metaFields s created fetched it won flags

/-- What a read prints to the log and what it answers. -/
structure ReadReply where
  log : List String
  error : Option String
  fields : List MetaField
  value : Option (List UInt8)

/-- Whether `mg` moves the item's time only after it has looked at it. -/
def bumpsLate (flags : List MetaFlag) (input : MetaInput) : Bool :=
  flags.any MetaFlag.locks && !flags.contains .noUpdate && input.bump

/-- The answer for an item: its marks, its value if it is asked for, and the
reference that the response keeps. -/
def metaHit (s : State) (p : ItemPtr) (created : Bool) (flags : List MetaFlag)
    (input : MetaInput) : ReadReply × State :=
  let (it, won, fields) := metaFields s created input.fetched (s.heap p) false flags
  let sent := if it.tokenSent then [MetaField.tokenSent] else []
  let stale := if it.stale then [MetaField.stale] else []
  let wins := won || (it.stale && !it.tokenSent)
  let win := if wins then [MetaField.win] else []
  let time := if bumpsLate flags input then s.currentTime else it.time
  let s := s.modify p fun _ => { it with tokenSent := it.tokenSent || wins, time }
  (⟨[], none, fields ++ sent ++ stale ++ win, if .value ∈ flags then some it.data else none⟩,
    { s with pending := s.pending ++ [p] })

/-- The flags before an opaque token that is too long have been acted upon. -/
def metaRefuse (s : State) (p : ItemPtr) (created : Bool) (flags : List MetaFlag)
    (input : MetaInput) : ReadReply × State :=
  let seen := flags.takeWhile fun flag => !flag.tooLong
  let (it, _, _) := metaFields s created input.fetched (s.heap p) false seen
  (⟨[], some "CLIENT_ERROR opaque token too long", [], none⟩,
    doItemRemove (s.modify p fun _ => it) p)

/-- `process_mget_command` -/
def processMgetCommand (s : State) (key : Key) (flags : List MetaFlag) (input : MetaInput) :
    ReadReply × State :=
  let refuse (text : String) (s : State) : ReadReply × State := (⟨[], some text, [], none⟩, s)
  if keyMaxLength < key.length ∨ flags = [] then refuse "CLIENT_ERROR bad command line format" s
  else if ¬(flags.map MetaFlag.letter).Nodup then refuse "CLIENT_ERROR duplicate flag" s
  else
    let bump := input.bump && !(flags.contains .noUpdate || flags.any MetaFlag.locks)
    match doItemGet s key bump with
    | (some p, s) =>
      if itRefcountLimit < (s.heap p).refcount then
        refuse "SERVER_ERROR refcount overflow during fetch" (doItemRemove s p)
      else if flags.any MetaFlag.tooLong then metaRefuse s p false flags input
      else metaHit s p false flags input
    | (none, s) =>
      if flags.any MetaFlag.vivifies then
        match doItemAlloc s key 0 0 2 input.alloc with
        | (some p, s) =>
          let s := doItemLink (s.modify p fun it => { it with data := [13, 10] }) p
          if flags.any MetaFlag.tooLong then metaRefuse s p true flags input
          else metaHit s p true flags input
        | (none, s) => (⟨[], none, [], none⟩, s)
      else (⟨[], none, [], none⟩, s)

/-! ## The binary protocol -/

/-- The binary retrieval commands; `touch` is the new expiry, if any. -/
structure BinaryGet where
  touch : Option Nat
  returnKey : Bool
  returnValue : Bool
  bump : Bool

/-- `process_bin_get_or_touch` -/
def processBinGetOrTouch (s : State) (key : Key) (cmd : BinaryGet) : ReadReply × State :=
  match doItemGet s key cmd.bump with
  | (none, s) => (⟨[], none, [], none⟩, s)
  | (some p, s) =>
    let s := setExptime s p cmd.touch
    let it := s.heap p
    let fields := [MetaField.clientFlags it.flags, .cas (itemGetCas s it)] ++
      if cmd.returnKey then [.key it.key] else []
    let value := if cmd.returnValue then some (it.data.take (it.nbytes - 2)) else none
    (⟨[], none, fields, value⟩, { s with pending := s.pending ++ [p] })

/-! ## Reading a value -/

/-- A way to ask for the value of one key. -/
inductive ReadPath where
  | text (returnCas : Bool) (touch : Option Nat) (bump : Bool)
  | mget (flags : List MetaFlag) (input : MetaInput)
  | binary (cmd : BinaryGet)

namespace ReadPath

/-- Requests that ask for the value and that the parser accepts. -/
def AsksValue : ReadPath → Prop
  | text _ _ _ => True
  | mget flags _ => .value ∈ flags ∧ (flags.map MetaFlag.letter).Nodup ∧
      flags.any MetaFlag.tooLong = false
  | binary cmd => cmd.returnValue = true

/-- The answer to a request for one key. -/
def read (s : State) (key : Key) : ReadPath → Exec (ReadReply × State)
  | text returnCas touch bump => do
    let (reply, s) ← processGetCommand s ⟨[key], returnCas, touch, bump⟩
    return (⟨reply.log, none, [], reply.values.head?.map Value.data⟩, s)
  | mget flags input => .ok (processMgetCommand s key flags input)
  | binary cmd => .ok (processBinGetOrTouch s key cmd)

end ReadPath

/-! ## What a hit delivers -/

/-- Of the item itself, the flags of `mg` change at most the expiry. -/
theorem metaFields_item (s : State) (created fetched : Bool) (it : Item) (won : Bool)
    (flags : List MetaFlag) :
    ∃ exptime, (metaFields s created fetched it won flags).1 = { it with exptime } := by
  induction flags generalizing it won with
  | nil => exact ⟨it.exptime, rfl⟩
  | cons flag flags ih =>
    cases flag with
    | newTtl exptime => exact ih _ _
    | vivify exptime =>
      simp only [metaFields]
      split
      · exact ih _ _
      · exact ih _ _
    | _ => exact ih _ _

/-- The flags of `mg` do not change the value. -/
theorem metaFields_data (s : State) (created fetched : Bool) (it : Item) (won : Bool)
    (flags : List MetaFlag) : (metaFields s created fetched it won flags).1.data = it.data := by
  obtain ⟨exptime, same⟩ := metaFields_item s created fetched it won flags
  rw [same]

section

variable {s s' : State} {key : Key} {p : ItemPtr} {reply : ReadReply}

/-- `get` sends the value, whatever the tree says. -/
theorem read_text (live : liveItem s key = some p) (calm : (s.heap p).refcount < itRefcountLimit)
    (short : ¬keyMaxLength < key.length) {returnCas : Bool} {touch : Option Nat} {bump : Bool}
    (ran : (ReadPath.text returnCas touch bump).read s key = .ok (reply, s')) :
    reply.value = some (s.heap p).data := by
  obtain ⟨s₁, found, data⟩ := limitedGet_live live calm touch bump
  obtain ⟨⟨got, s₂⟩, command, ran⟩ := Exec.bind_eq_ok.mp ran
  cases ran
  simp only [processGetCommand, processGetKeys, if_neg short, processGetKey, found] at command
  cases verified : verifyItem s₁ p with
  | error trap => simp [verified] at command
  | ok r =>
    simp only [verified, Exec.ok_bind, Exec.pure_eq_ok, if_true, Except.ok.injEq,
      Prod.mk.injEq] at command
    obtain ⟨rfl, _⟩ := command
    simp [valueBlock, data]

/-- `mg` sends the value and prints nothing. -/
theorem read_mget (live : liveItem s key = some p)
    (calm : (s.heap p).refcount < itRefcountLimit) (short : ¬keyMaxLength < key.length)
    {flags : List MetaFlag} {input : MetaInput} (asks : (ReadPath.mget flags input).AsksValue)
    (ran : (ReadPath.mget flags input).read s key = .ok (reply, s')) :
    reply.value = some (s.heap p).data ∧ reply.log = [] ∧ reply.error = none := by
  obtain ⟨value, nodup, fits⟩ := asks
  have flagged : flags ≠ [] := List.ne_nil_of_mem value
  obtain ⟨s₁, found, -, data, refcount⟩ := doItemGet_live live
    (input.bump && !(flags.contains .noUpdate || flags.any MetaFlag.locks))
  have free : ¬itRefcountLimit < (s₁.heap p).refcount := by omega
  have accepted : ¬(keyMaxLength < key.length ∨ flags = []) := by simp [short, flagged]
  simp only [ReadPath.read, processMgetCommand, if_neg accepted, not_true, nodup, if_false, found,
    if_neg free, fits, Bool.false_eq_true, metaHit, value, if_true, Except.ok.injEq,
    Prod.mk.injEq] at ran
  obtain ⟨rfl, _⟩ := ran
  simp [metaFields_data, data]

/-- The binary protocol sends the value without its line end and prints nothing. -/
theorem read_binary (live : liveItem s key = some p) {cmd : BinaryGet}
    (asks : (ReadPath.binary cmd).AsksValue)
    (ran : (ReadPath.binary cmd).read s key = .ok (reply, s')) :
    reply.value = some ((s.heap p).data.take ((s.heap p).nbytes - 2)) ∧ reply.log = [] ∧
      reply.error = none := by
  have asks : cmd.returnValue = true := asks
  obtain ⟨s₁, found, -, data, -⟩ := doItemGet_live live cmd.bump
  have same := (setExptime_data s₁ p cmd.touch).1.trans data
  simp only [ReadPath.read, processBinGetOrTouch, found, asks, if_true, Except.ok.injEq,
    Prod.mk.injEq] at ran
  obtain ⟨rfl, _⟩ := ran
  simp [Item.nbytes, same]

end

/-! ## Changed values -/

/-- Someone overwrites the bytes of a stored value and nothing else. -/
def tamper (s : State) (p : ItemPtr) (changed : List UInt8) : State :=
  s.modify p fun it => { it with data := changed }

theorem liveItem_tamper (s : State) (p : ItemPtr) (changed : List UInt8) (key : Key) :
    liveItem (tamper s p changed) key = liveItem s key := by
  have dead : ∀ q, itemIsDead (tamper s p changed) ((tamper s p changed).heap q) =
      itemIsDead s (s.heap q) := by
    intro q
    by_cases here : q = p
    · subst q
      rw [tamper, State.modify_heap_self]
      rfl
    · rw [tamper, State.modify_heap_of_ne _ here]
      rfl
  simp only [liveItem, dead]
  rfl

/-- The read complains and does not send the changed value. -/
def ReadReply.Detects (reply : ReadReply) (changed : List UInt8) : Prop :=
  (reply.log ≠ [] ∨ reply.error ≠ none) ∧ reply.value ≠ some changed ∧
    reply.value ≠ some (changed.take (changed.length - 2))

/-- The change is detected by the read, or the code does not tell the values apart. -/
def TamperEvident (s : State) (key : Key) (p : ItemPtr) (changed : List UInt8)
    (path : ReadPath) : Prop :=
  cmacOf cmacKey changed = cmacOf cmacKey (s.heap p).data ∨
    ∃ reply s', path.read (tamper s p changed) key = .ok (reply, s') ∧ reply.Detects changed

/-- The read is a request for the value that finds the item. -/
structure ReadPath.Hits (path : ReadPath) (s : State) (key : Key) (p : ItemPtr) : Prop where
  asks : path.AsksValue
  short : ¬keyMaxLength < key.length
  live : liveItem s key = some p
  calm : (s.heap p).refcount < itRefcountLimit

theorem ReadPath.Hits.tamper {path : ReadPath} {s : State} {key : Key} {p : ItemPtr}
    (hits : path.Hits s key p) (changed : List UInt8) :
    path.Hits (tamper s p changed) key p where
  asks := hits.asks
  short := hits.short
  live := (liveItem_tamper s p changed key).trans hits.live
  calm := by simpa [Server.tamper] using hits.calm

theorem not_detects {s : State} {key : Key} {p : ItemPtr} {path : ReadPath}
    (hits : path.Hits s key p) (changed : List UInt8) {reply : ReadReply} {s' : State}
    (ran : path.read (tamper s p changed) key = .ok (reply, s')) : ¬reply.Detects changed := by
  obtain ⟨asks, short, live, calm⟩ := hits.tamper changed
  have data : ((tamper s p changed).heap p).data = changed := by simp [tamper]
  rintro ⟨complains, notSent, _⟩
  cases path with
  | text returnCas touch bump => exact notSent (data ▸ read_text live calm short ran)
  | mget flags input =>
    obtain ⟨_, log, error⟩ := read_mget live calm short asks ran
    simp [log, error] at complains
  | binary cmd =>
    obtain ⟨_, log, error⟩ := read_binary live asks ran
    simp [log, error] at complains

/-- A change of a stored value is evident to a read that finds the item only if
the changed value has the same code. -/
theorem tamperEvident_iff (s : State) (key : Key) (p : ItemPtr) (changed : List UInt8)
    (path : ReadPath) (hits : path.Hits s key p) :
    TamperEvident s key p changed path ↔
      cmacOf cmacKey changed = cmacOf cmacKey (s.heap p).data := by
  constructor
  · rintro (same | ⟨reply, s', ran, detects⟩)
    · exact same
    · exact absurd detects (not_detects hits changed ran)
  · exact Or.inl

/-- The server after `set k 1`. -/
private theorem stored_one :
    ∃ s, step (State.init defaultSettings) (.update .set (plainRequest [107] [49, 13, 10])) =
        .ok s ∧ liveItem s [107] = some 0 ∧ (s.heap 0).refcount < itRefcountLimit ∧
      (s.heap 0).data = [49, 13, 10] := by
  have facts : (do
      let s ← step (State.init defaultSettings) (.update .set (plainRequest [107] [49, 13, 10]))
      return (liveItem s [107], (s.heap 0).refcount, (s.heap 0).data)) =
        (.ok (some 0, 1, [49, 13, 10]) : Exec _) := by decide +kernel
  obtain ⟨s, ran, result⟩ := Exec.bind_eq_ok.mp facts
  simp only [Exec.pure_eq_ok, Except.ok.injEq, Prod.mk.injEq] at result
  obtain ⟨live, refcount, data⟩ := result
  exact ⟨s, ran, live, by rw [refcount]; decide, data⟩

theorem tamperEvident_sample :
    ∃ s, step (State.init defaultSettings) (.update .set (plainRequest [107] [49, 13, 10])) =
        .ok s ∧
      (TamperEvident s [107] 0 [50, 13, 10] (.text false none true) ↔
        cmacOf cmacKey [50, 13, 10] = cmacOf cmacKey (s.heap 0).data) := by
  obtain ⟨s, ran, live, calm, _⟩ := stored_one
  exact ⟨s, ran, tamperEvident_iff s [107] 0 _ _ ⟨trivial, by decide, live, calm⟩⟩

/-- After `set k 1` someone makes the value a 2, and none of the three ways to
read it complains and holds it back. -/
theorem changed_value_delivered :
    ∃ s, step (State.init defaultSettings) (.update .set (plainRequest [107] [49, 13, 10])) =
        .ok s ∧
      ¬TamperEvident s [107] 0 [50, 13, 10] (.text false none true) ∧
      ¬TamperEvident s [107] 0 [50, 13, 10] (.mget [.value] ⟨none, true, false⟩) ∧
      ¬TamperEvident s [107] 0 [50, 13, 10] (.binary ⟨none, false, true, true⟩) := by
  obtain ⟨s, ran, live, calm, data⟩ := stored_one
  have differs : cmacOf cmacKey [50, 13, 10] ≠ cmacOf cmacKey [49, 13, 10] := by decide +kernel
  have unseen : ∀ path : ReadPath, path.AsksValue →
      ¬TamperEvident s [107] 0 [50, 13, 10] path := by
    rintro path asks (same | ⟨reply, s', read, detects⟩)
    · exact differs (data ▸ same)
    · exact not_detects ⟨asks, by decide, live, calm⟩ _ read detects
  exact ⟨s, ran, unseen _ trivial, unseen _ ⟨by decide, by decide, rfl⟩, unseen _ rfl⟩

end Kvsev.Server
