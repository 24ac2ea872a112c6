import Kvsev.Meta.Preparse
import Kvsev.Server.Ages

/-!
# The meta commands

`mg`, `md` and `ma` as they are read from a line. All of them check the flags twice: the
preparser sees to their letters and their numbers, and a loop over the same words then builds
the answer. The length of an opaque token is only looked at in this second loop, which `md`
runs before it looks for the item, and `mg` and `ma` afterwards.

What is not modelled are the statistics and the layout of the answer in its buffer.
-/

namespace Kvsev.Meta

open Server Connection

/-- How an answer begins. -/
inductive Status where
  /-- `HD`, or `OK` with `meta_response_old`. -/
  | header
  /-- `VA` and the length. -/
  | value (length : Nat)
  /-- `EN` -/
  | miss
  /-- `NF` -/
  | notFound
  /-- `EX` -/
  | exists
  /-- `ERROR` -/
  | error
  /-- A text that begins with `CLIENT_ERROR`. -/
  | clientError (str : String)
  /-- A text that begins with `SERVER_ERROR`. -/
  | serverError (str : String)
  deriving DecidableEq, Repr

/-- An answer; one that is skipped is not sent. -/
structure Reply where
  status : Status
  fields : List MetaField := []
  value : Option (List UInt8) := none
  skip : Bool := false

/-- The words after the key. -/
def flagTokens (t : Tokens) : List (List UInt8) := t.words.drop 2

/-- The checks that `md` and `ma` make, and `mg` with one more. -/
structure Checked (sup : Supply) (t : Tokens) : Prop where
  words : ¬t.ntokens < 3
  short : ¬keyMaxLength < (t.word 1).length
  few : ¬mflagMaxOptLength < t.ntokens
  accepted : Accepted sup (t.word 1) [] (flagTokens t)

/-- What the preparser starts with. -/
def preparseStart (key : Key) (flags : MetaFlags) : Preparse :=
  ⟨flags, "CLIENT_ERROR bad command line format", key⟩

/-- The result of the preparser for a line it accepts. -/
def linePreparse (sup : Supply) (now : Nat) (key : Key) (flags : MetaFlags)
    (tokens : List (List UInt8)) : Preparse :=
  tokens.foldl (applyFlag sup now) (preparseStart key flags)

section

variable {sup : Supply} {key : Key} {flags : MetaFlags} {tokens : List (List UInt8)}
variable (accepted : Accepted sup key [] tokens)

include accepted

theorem preparse_of_accepted (now : Nat) (clean : flags.hasError = false) :
    metaFlagPreparse sup now tokens [] (preparseStart key flags) =
      .ok (linePreparse sup now key flags tokens) :=
  metaFlagPreparse_iff.mpr ⟨clean, accepted, rfl⟩

theorem linePreparse_key (now : Nat) :
    (linePreparse sup now key flags tokens).key = lineKey sup key tokens :=
  foldl_key now (p := preparseStart key flags) accepted

theorem linePreparse_keyBinary (now : Nat) (start : flags.keyBinary = false) :
    (linePreparse sup now key flags tokens).flags.keyBinary = (flagOf 98 tokens).isSome := by
  have found := foldl_keyBinary now (p := preparseStart key flags) accepted
  rw [linePreparse, found, preparseStart, start]
  cases flagOf 98 tokens <;> rfl

theorem linePreparse_setStale (now : Nat) (start : flags.setStale = false) :
    (linePreparse sup now key flags tokens).flags.setStale = (flagOf 73 tokens).isSome := by
  have found := foldl_setStale now (p := preparseStart key flags) accepted
  rw [linePreparse, found, preparseStart, start]
  cases flagOf 73 tokens <;> rfl

theorem linePreparse_cas (now : Nat) (start : flags.hasCas = false ∧ flags.reqCasId = 0) :
    (linePreparse sup now key flags tokens).flags.hasCas = (flagOf 67 tokens).isSome ∧
      (linePreparse sup now key flags tokens).flags.reqCasId =
        ((flagOf 67 tokens).map fun token => (safeUnsigned token.tail).getD 0).getD 0 := by
  have found := foldl_cas now (p := preparseStart key flags) accepted
  rw [linePreparse]
  cases guard : flagOf 67 tokens with
  | none =>
    rw [guard] at found
    obtain ⟨cas, hasCas⟩ := Prod.mk.inj found
    exact ⟨hasCas.trans start.1, cas.trans start.2⟩
  | some token =>
    rw [guard] at found
    obtain ⟨cas, hasCas⟩ := Prod.mk.inj found
    exact ⟨hasCas, cas⟩

theorem linePreparse_ttl (now : Nat) (start : flags.newTtl = false ∧ flags.exptime = 0) :
    (linePreparse sup now key flags tokens).flags.newTtl = (lineTtl sup now tokens).isSome ∧
      (linePreparse sup now key flags tokens).flags.exptime =
        (lineTtl sup now tokens).getD 0 := by
  have found := foldl_ttl now (p := preparseStart key flags) accepted
  rw [linePreparse, lineTtl]
  cases ttl : flagOf 84 tokens with
  | none =>
    rw [ttl] at found
    obtain ⟨exptime, newTtl⟩ := Prod.mk.inj found
    exact ⟨newTtl.trans start.1, exptime.trans start.2⟩
  | some token =>
    rw [ttl] at found
    obtain ⟨exptime, newTtl⟩ := Prod.mk.inj found
    exact ⟨newTtl, exptime⟩

theorem linePreparse_clientFlags (now : Nat) (start : flags.clientFlags = 0) :
    (linePreparse sup now key flags tokens).flags.clientFlags =
      ((flagOf 70 tokens).map fun token => (safeStrtoul token.tail).getD 0).getD 0 := by
  have found := foldl_clientFlags now (p := preparseStart key flags) accepted
  rw [linePreparse, found, preparseStart, start]

theorem linePreparse_mode (now : Nat) (start : flags.mode = 0) :
    (linePreparse sup now key flags tokens).flags.mode =
      ((flagOf 77 tokens).map fun token => token.getD 1 0).getD 0 := by
  have found := foldl_mode now (p := preparseStart key flags) accepted
  rw [linePreparse, found, preparseStart, start]

theorem linePreparse_number (now : Nat) {token : List UInt8} (mem : token ∈ tokens) :
    (letter token = 84 →
      (linePreparse sup now key flags tokens).flags.exptime = numberTime sup now token) ∧
    (letter token = 78 →
      (linePreparse sup now key flags tokens).flags.autovivExptime =
        numberTime sup now token) := by
  constructor
  · intro here
    have found := foldl_ttl now (p := preparseStart key flags) accepted
    rw [flagOf_of_mem accepted.nodup mem here] at found
    exact (Prod.mk.inj found).1
  · intro here
    have found := foldl_vivify now (p := preparseStart key flags) accepted
    rw [flagOf_of_mem accepted.nodup mem here] at found
    exact (Prod.mk.inj found).1

theorem linePreparse_vivify (now : Nat) (start : flags.vivify = false) :
    (linePreparse sup now key flags tokens).flags.vivify = (flagOf 78 tokens).isSome := by
  have found := foldl_vivify now (p := preparseStart key flags) accepted
  rw [linePreparse]
  cases vivify : flagOf 78 tokens with
  | none =>
    rw [vivify] at found
    exact (Prod.mk.inj found).2.trans start
  | some token =>
    rw [vivify] at found
    exact (Prod.mk.inj found).2

end

/-! ## `mg` -/

/-- A word as the second loop of `mg` sees it; other letters mean nothing to it. -/
def mgetFlag (of : MetaFlags) (token : List UInt8) : Option MetaFlag :=
  match token.head?.map fun c => Char.ofNat c.toNat with
  | some 'T' => some (.newTtl of.exptime)
  | some 'N' => some (.vivify of.autovivExptime)
  | some 'R' => some (.recache of.recacheTime)
  | some 's' => some .size
  | some 't' => some .ttl
  | some 'c' => some .cas
  | some 'f' => some .clientFlags
  | some 'l' => some .lastAccess
  | some 'h' => some .hit
  | some 'O' => some (.opaqueToken token)
  | some 'k' => some .key
  | some 'v' => some .value
  | some 'u' => some .noUpdate
  | some 'q' => some .noReply
  | _ => none

/-- Flags that have nothing to do with the expiry. -/
def plain : MetaFlag → Bool
  | .newTtl _ | .vivify _ | .ttl => false
  | _ => true

theorem mgetFlag_cases (of : MetaFlags) (token : List UInt8) :
    letter token = 116 ∧ mgetFlag of token = some .ttl ∨
      letter token = 84 ∧ mgetFlag of token = some (.newTtl of.exptime) ∨
      letter token = 78 ∧ mgetFlag of token = some (.vivify of.autovivExptime) ∨
      (letter token ≠ 116 ∧ letter token ≠ 84 ∧ letter token ≠ 78) ∧
        ∀ flag, mgetFlag of token = some flag → plain flag = true := by
  by_cases ttl : letter token = 116
  · rw [eq_cons_of_letter (by decide) ttl]
    exact .inl ⟨rfl, rfl⟩
  by_cases newTtl : letter token = 84
  · rw [eq_cons_of_letter (by decide) newTtl]
    exact .inr (.inl ⟨rfl, rfl⟩)
  by_cases vivify : letter token = 78
  · rw [eq_cons_of_letter (by decide) vivify]
    exact .inr (.inr (.inl ⟨rfl, rfl⟩))
  refine .inr (.inr (.inr ⟨⟨ttl, newTtl, vivify⟩, fun flag found => ?_⟩))
  unfold mgetFlag at found
  split at found
  · rename_i head
    exact absurd (letter_eq_of_head head) newTtl
  · rename_i head
    exact absurd (letter_eq_of_head head) vivify
  case h_5 head => exact absurd (letter_eq_of_head head) ttl
  case h_15 => cases found
  all_goals
    cases found
    rfl

/-- The part of `process_mget_command` that has an item. -/
def mgetAnswer (s : State) (p : ItemPtr) (created : Bool) (flags : List MetaFlag)
    (input : MetaInput) : Reply × State :=
  if flags.any MetaFlag.tooLong then
    ({ status := .clientError "CLIENT_ERROR opaque token too long" },
      (metaRefuse s p created flags input).2)
  else
    let (found, s') := metaHit s p created flags input
    let status := if .value ∈ flags then .value ((s.heap p).nbytes - 2) else .header
    ({ status, fields := found.fields, value := found.value }, s')

/-- `process_mget_command`, once the flags are read. -/
def mgetItem (s : State) (key : Key) (flags : List MetaFlag) (input : MetaInput) :
    Reply × State :=
  let miss : Reply := { status := .miss, skip := flags.contains .noReply }
  let bump := input.bump && !(flags.contains .noUpdate || flags.any MetaFlag.locks)
  match doItemGet s key bump with
  | (some p, s) =>
    if itRefcountLimit < (s.heap p).refcount then
      ({ status := .serverError "SERVER_ERROR refcount overflow during fetch" }, doItemRemove s p)
    else mgetAnswer s p false flags input
  | (none, s) =>
    if flags.any MetaFlag.vivifies then
      match doItemAlloc s key 0 0 2 input.alloc with
      | (some p, s) =>
        mgetAnswer (doItemLink (s.modify p fun it => { it with data := [13, 10] }) p) p true
          flags input
      | (none, s) => (miss, s)
    else (miss, s)

/-- `process_mget_command` -/
def processMgetCommand (sup : Supply) (s : State) (t : Tokens) (input : MetaInput) :
    Reply × State :=
  if t.ntokens < 3 then ({ status := .error }, s)
  else if keyMaxLength < (t.word 1).length ∨ t.ntokens = 3 then
    ({ status := .clientError "CLIENT_ERROR bad command line format" }, s)
  else if mflagMaxOptLength < t.ntokens then
    ({ status := .clientError "CLIENT_ERROR options flags are too long" }, s)
  else
    match metaFlagPreparse sup s.currentTime (flagTokens t) [] (preparseStart (t.word 1) {}) with
    | .error errstr => ({ status := .clientError errstr }, s)
    | .ok p => mgetItem s p.key ((flagTokens t).filterMap (mgetFlag p.flags)) input

/-! ## `md` -/

/-- What the loop of `md` answers to a word. -/
def echo (key : Key) (token : List UInt8) : Option MetaField :=
  match token.head?.map fun c => Char.ofNat c.toNat with
  | some 'O' => some (.opaqueToken token)
  | some 'k' => some (.key key)
  | _ => none

/-- `process_mdelete_command`, once the flags are read. The unique is compared with a variable
that stays zero, not with the one of the request. -/
def mdeleteItem (s : State) (key : Key) (of : MetaFlags) (fields : List MetaField) :
    Reply × State :=
  match doItemGet s key false with
  | (none, s) => ({ status := .notFound, fields }, s)
  | (some p, s) =>
    let reqCasId := 0
    if of.hasCas ∧ itemGetCas s (s.heap p) ≠ reqCasId then
      ({ status := .exists, fields }, doItemRemove s p)
    else if of.setStale then
      ({ status := .header, fields, skip := of.noReply },
        doItemRemove (markStale s p (if of.newTtl then some of.exptime else none)) p)
    else
      ({ status := .header, fields, skip := of.noReply }, doItemRemove (doItemUnlink s p) p)

/-- `process_mdelete_command` -/
def processMdeleteCommand (sup : Supply) (s : State) (t : Tokens) : Reply × State :=
  if t.ntokens < 3 then ({ status := .error }, s)
  else if keyMaxLength < (t.word 1).length then
    ({ status := .clientError "CLIENT_ERROR bad command line format" }, s)
  else if mflagMaxOptLength < t.ntokens then
    ({ status := .clientError "CLIENT_ERROR options flags too long" }, s)
  else
    match metaFlagPreparse sup s.currentTime (flagTokens t) [] (preparseStart (t.word 1) {}) with
    | .error _ => ({ status := .clientError "CLIENT_ERROR invalid or duplicate flag" }, s)
    | .ok p =>
      if (flagTokens t).any opaqueTooLong then
        ({ status := .clientError "CLIENT_ERROR opaque token too long" }, s)
      else mdeleteItem s p.key p.flags ((flagTokens t).filterMap (echo p.key))

/-! ## `ma` -/

/-- What `ma` needs from outside: memory, and what is behind a value without an end. -/
structure MathInput where
  alloc : ItemAlloc
  dashBehind : Bool
  created : ItemAlloc
  copy : CopyInput

/-- The mode of `ma`: whether it increments. -/
def mathMode (mode : UInt8) : Option Bool :=
  if mode = 0 ∨ mode = 73 ∨ mode = 43 then some true
  else if mode = 68 ∨ mode = 45 then some false
  else none

/-- A word as the second loop of `ma` sees it. -/
def mathFlag (of : MetaFlags) (token : List UInt8) : Option MetaFlag :=
  match token.head?.map fun c => Char.ofNat c.toNat with
  | some 'c' => some .cas
  | some 't' => some .ttl
  | some 'T' => some (.newTtl of.exptime)
  | some 'N' => some (.vivify of.autovivExptime)
  | some 'O' => some (.opaqueToken token)
  | some 'k' => some .key
  | _ => none

/-- The part of `process_marithmetic_command` that has an item. -/
def mathAnswer (s : State) (p : ItemPtr) (created : Bool) (of : MetaFlags)
    (flags : List MetaFlag) (number : List UInt8) : Reply × State :=
  if flags.any MetaFlag.tooLong then
    ({ status := .clientError "CLIENT_ERROR opaque token too long" },
      (metaRefuse s p created flags ⟨none, false, false⟩).2)
  else
    let (it, _, fields) := metaFields s created false (s.heap p) false flags
    ({ status := if of.value then .value number.length else .header
       fields
       value := if of.value then some number else none
       skip := of.noReply && !created }, doItemRemove (s.modify p fun _ => it) p)

/-- The part that has none. -/
def mathMiss (s : State) (key : Key) (tokens : List (List UInt8)) (status : Status) :
    Reply × State :=
  if tokens.any opaqueTooLong then
    ({ status := .clientError "CLIENT_ERROR opaque token too long" }, s)
  else ({ status, fields := tokens.filterMap (echo key) }, s)

/-- The item with the initial value. -/
def mathVivify (s : State) (key : Key) (of : MetaFlags) (flags : List MetaFlag)
    (input : MathInput) : Reply × State :=
  let number := itoaU64 of.initial
  match doItemAlloc s key 0 0 (number.length + 2) input.created with
  | (none, s) => ({ status := .serverError "SERVER_ERROR Out of memory allocating new item" }, s)
  | (some p, s) =>
    let s := s.modify p fun it => { it with data := number ++ [13, 10] }
    let (ret, s) := doStoreItem s p .add false input.copy
    mathAnswer s p (ret = .stored) of flags number

/-- `process_marithmetic_command`, once the flags are read. -/
def mathItem (s : State) (key : Key) (of : MetaFlags) (incr : Bool)
    (tokens : List (List UInt8)) (input : MathInput) : Reply × State :=
  let flags := tokens.filterMap (mathFlag of)
  match doAddDeltaItem s ⟨key, incr, of.delta, of.reqCasId, input.dashBehind, input.alloc⟩ with
  | (.nonNumeric, _, s) =>
    ({ status := .clientError "CLIENT_ERROR cannot increment or decrement non-numeric value" }, s)
  | (.eom, _, s) => ({ status := .serverError "SERVER_ERROR out of memory" }, s)
  | (.itemCasMismatch, _, s) => mathMiss s key tokens .exists
  | (.itemNotFound, _, s) =>
    if of.vivify then mathVivify s key of flags input else mathMiss s key tokens .notFound
  | (.ok, some (p, number), s) => mathAnswer s p false of flags number
  | (.ok, none, s) => mathMiss s key tokens .header

/-- `process_marithmetic_command` -/
def processMarithmeticCommand (sup : Supply) (s : State) (t : Tokens) (input : MathInput) :
    Reply × State :=
  if t.ntokens < 3 then ({ status := .error }, s)
  else if keyMaxLength < (t.word 1).length then
    ({ status := .clientError "CLIENT_ERROR bad command line format" }, s)
  else if mflagMaxOptLength < t.ntokens then
    ({ status := .clientError "CLIENT_ERROR options flags too long" }, s)
  else
    match metaFlagPreparse sup s.currentTime (flagTokens t) []
        (preparseStart (t.word 1) { delta := 1 }) with
    | .error _ => ({ status := .clientError "CLIENT_ERROR invalid or duplicate flag" }, s)
    | .ok p =>
      match mathMode p.flags.mode with
      | none => ({ status := .clientError "CLIENT_ERROR invalid mode for ma M token" }, s)
      | some incr => mathItem s p.key p.flags incr (flagTokens t) input

end Kvsev.Meta
