import Kvsev.Connection.Machine

/-!
# The lines of storage commands

`process_update_command` and `process_mset_command` read the words of a line before the
value comes: its length, its flags and its expiry, and what `ms` gives as flags of its
own. Where they refuse the command, they decide what becomes of the value.

Whether there is memory for the item is an input, and so is the decoding of keys that are
given in base64.
-/

namespace Kvsev.Connection

open Server

/-! ## Numbers -/

/-- A number in a word ends with the word or with a space. -/
def endsNumber : List UInt8 → Bool
  | [] => true
  | c :: _ => isSpace c

/-- `strtoul` and `strtoull`, with what `safe_strtoul` and `safe_strtoull` make of it. -/
def safeUnsigned (str : List UInt8) : Option Nat :=
  let (negative, digits, rest) := scanNumber str
  let value := digitsValue digits
  if digits = [] ∨ 2 ^ 64 ≤ value then none
  else
    let l := if negative then u64 (2 ^ 64 - value) else value
    if endsNumber rest then if 2 ^ 63 ≤ l ∧ 45 ∈ str then none else some l else none

/-- `safe_strtoul`; what does not fit is cut off. -/
def safeStrtoul (str : List UInt8) : Option Nat := (safeUnsigned str).map (· % 2 ^ 32)

/-- `safe_strtol`; what does not fit is cut off. -/
def safeStrtol (str : List UInt8) : Option Int :=
  let (negative, digits, rest) := scanNumber str
  let value : Int := digitsValue digits
  let l := if negative then -value else value
  if digits = [] ∨ l < -2 ^ 63 ∨ 2 ^ 63 ≤ l then none
  else if endsNumber rest then some (l.bmod (2 ^ 32)) else none

/-! ## Storage commands -/

/-- What a line is served with besides the items: the time the process was started, the
memory for an item, and the key that `base64_decode` makes of one, which is empty where it
fails. -/
structure Supply where
  started : Nat
  alloc : State → Tokens → ItemAlloc
  decode : Key → Key

/-- A word of the line, which is empty if there is none. -/
def Tokens.word (t : Tokens) (i : Nat) : List UInt8 := t.words[i]?.getD []

/-- The length of a value, if it is one. -/
def validLength (word : List UInt8) : Option Nat :=
  match safeStrtol word with
  | none => none
  | some vlen => if vlen < 0 ∨ (intMax : Int) - 2 < vlen then none else some vlen.toNat

/-- The error for an item there is no memory for. -/
def noItemText (s : State) (key : Key) (flags vlen : Nat) : String :=
  if itemSizeOk s.settings key.length flags (vlen + 2) then
    "SERVER_ERROR out of memory storing object"
  else "SERVER_ERROR object too large for cache"

/-- `process_update_command`. What it keeps for `complete_nread_ascii` is the item and the
command. -/
def processUpdateCommand (sup : Supply) (s : State) (comm : Nread) (t : Tokens) :
    Begun (ItemPtr × Nread) × State :=
  let noreply := setNoreplyMaybe t
  let refuse : Begun (ItemPtr × Nread) × State :=
    (.refused (Resp.outString noreply (text "CLIENT_ERROR bad command line format")), s)
  let key := t.word 1
  if keyMaxLength < key.length then refuse
  else
    match safeStrtoul (t.word 2), safeStrtol (t.word 3), safeStrtol (t.word 4),
      (if comm = .cas then safeUnsigned (t.word 5) else some 0) with
    | some flags, some exptime, some _, some cas =>
      match validLength (t.word 4) with
      | none => refuse
      | some vlen =>
        let exptime := realtime sup.started s.currentTime (exptimeToPositiveTime exptime)
        match doItemAlloc s key flags exptime (vlen + 2) (sup.alloc s t) with
        | (some p, s) => (.upload (p, comm) vlen, s.modify p fun it => itemSetCas s it cas)
        | (none, s) =>
          (.swallow (Resp.outString noreply (text (noItemText s key flags vlen))) vlen,
            dropOnFailedAlloc s key comm)
    | _, _, _, _ => refuse

/-! ## `ms` -/

def mflagMaxOptLength : Nat := 20

/-- `struct _meta_flags`, without two bits that nobody reads. -/
structure MetaFlags where
  hasError : Bool := false
  noUpdate : Bool := false
  locked : Bool := false
  vivify : Bool := false
  value : Bool := false
  setStale : Bool := false
  noReply : Bool := false
  hasCas : Bool := false
  newTtl : Bool := false
  keyBinary : Bool := false
  mode : UInt8 := 0
  exptime : Nat := 0
  autovivExptime : Nat := 0
  recacheTime : Nat := 0
  clientFlags : Nat := 0
  reqCasId : Nat := 0
  delta : Nat := 0
  initial : Nat := 0
  deriving DecidableEq, Repr

/-- What the preparser has found so far: the flags, the last error and the key. -/
structure Preparse where
  flags : MetaFlags
  errstr : String
  key : Key

/-- An error that is remembered. -/
def Preparse.fail (p : Preparse) (errstr : String) : Preparse :=
  { p with flags := { p.flags with hasError := true }, errstr }

/-- A flag with a number. -/
def Preparse.number {α : Type} (p : Preparse) (errstr : String) (value : Option α)
    (set : MetaFlags → α → MetaFlags) : Preparse :=
  match value with
  | none => p.fail errstr
  | some v => { p with flags := set p.flags v }

/-- One round of `_meta_flag_preparse`, for a flag that was not seen before. Without a
result it bails out. -/
def preparseFlag (sup : Supply) (now : Nat) (p : Preparse) (token : List UInt8) :
    Except String Preparse :=
  let rest := token.tail
  let time (e : Int) : Nat := realtime sup.started now (exptimeToPositiveTime e)
  match token.head?.map fun c => Char.ofNat c.toNat with
  | some 'b' =>
    let key := sup.decode p.key
    let p := { p with key, flags := { p.flags with keyBinary := true } }
    .ok (if key = [] then p.fail "CLIENT_ERROR error decoding key" else p)
  | some 'N' =>
    let p := { p with flags := { p.flags with locked := true, vivify := true } }
    .ok (p.number "CLIENT_ERROR bad token in command line format" (safeStrtol rest)
      fun of e => { of with autovivExptime := time e })
  | some 'T' =>
    let p := { p with flags := { p.flags with locked := true } }
    .ok (p.number "CLIENT_ERROR bad token in command line format" (safeStrtol rest)
      fun of e => { of with exptime := time e, newTtl := true })
  | some 'R' =>
    let p := { p with flags := { p.flags with locked := true } }
    .ok (p.number "CLIENT_ERROR bad token in command line format" (safeStrtol rest)
      fun of e => { of with recacheTime := time e })
  | some 'l' | some 'h' => .ok { p with flags := { p.flags with locked := true } }
  | some 'O' | some 'k' | some 's' | some 't' | some 'c' | some 'f' => .ok p
  | some 'v' => .ok { p with flags := { p.flags with value := true } }
  | some 'u' => .ok { p with flags := { p.flags with noUpdate := true } }
  | some 'q' => .ok { p with flags := { p.flags with noReply := true } }
  | some 'F' =>
    -- This error keeps the text of the one before.
    .ok (p.number p.errstr (safeStrtoul rest) fun of v => { of with clientFlags := v })
  | some 'C' =>
    .ok (p.number "CLIENT_ERROR bad token in command line format" (safeUnsigned rest)
      fun of v => { of with reqCasId := v, hasCas := true })
  | some 'M' =>
    .ok (match token with
      | [_, mode] => { p with flags := { p.flags with mode } }
      | _ => p.fail "CLIENT_ERROR incorrect length for M token")
  | some 'J' =>
    .ok (p.number "CLIENT_ERROR invalid numeric initial value" (safeUnsigned rest)
      fun of v => { of with initial := v })
  | some 'D' =>
    .ok (p.number "CLIENT_ERROR invalid numeric delta value" (safeUnsigned rest)
      fun of v => { of with delta := v })
  | some 'I' => .ok { p with flags := { p.flags with setStale := true } }
  | _ => .error "CLIENT_ERROR invalid flag"

/-- `_meta_flag_preparse`, over the flags that are left and the letters that were seen. -/
def metaFlagPreparse (sup : Supply) (now : Nat) :
    List (List UInt8) → List UInt8 → Preparse → Except String Preparse
  | [], _, p => if p.flags.hasError then .error p.errstr else .ok p
  | token :: tokens, seen, p =>
    let letter := token.head?.getD 0
    if 127 ≤ letter ∨ letter ∈ seen then .error "CLIENT_ERROR duplicate flag"
    else do
      let p ← preparseFlag sup now p token
      metaFlagPreparse sup now tokens (letter :: seen) p

/-- The command for the mode of `ms`. -/
def msetMode (of : MetaFlags) : Option Nread :=
  let comm : Option Nread :=
    if of.mode = 0 ∨ of.mode = 83 then some .set
    else if of.mode = 69 then some .add
    else if of.mode = 65 then some .append
    else if of.mode = 80 then some .prepend
    else if of.mode = 82 then some .replace
    else none
  comm.map fun comm => if of.hasCas ∧ (comm = .set ∨ comm = .replace) then .cas else comm

/-- An opaque that does not fit into the response. -/
def opaqueTooLong (token : List UInt8) : Bool :=
  token.head? = some 79 ∧ mflagMaxOpaqueLength < token.length

/-- The part of `process_mset_command` that may still fail once the length is known: the
error, or the item that waits for its value. -/
def msetItem (sup : Supply) (s : State) (t : Tokens) (vlen : Nat) :
    Except String (ItemPtr × Nread) × State :=
  let start : Preparse := ⟨{}, "CLIENT_ERROR bad command line format", t.word 1⟩
  match metaFlagPreparse sup s.currentTime (t.words.drop 3) [] start with
  | .error errstr => (.error errstr, s)
  | .ok p =>
    match msetMode p.flags with
    | none => (.error "CLIENT_ERROR invalid mode for ms M token", s)
    | some comm =>
      if (t.words.drop 2).any opaqueTooLong then (.error "CLIENT_ERROR opaque token too long", s)
      else
        match doItemAlloc s p.key p.flags.clientFlags p.flags.exptime (vlen + 2)
            (sup.alloc s t) with
        | (some item, s) =>
          (.ok (item, comm), s.modify item fun it => itemSetCas s it p.flags.reqCasId)
        | (none, s) =>
          (.error (noItemText s p.key p.flags.clientFlags vlen), dropOnFailedAlloc s p.key .set)

/-- `process_mset_command` -/
def processMsetCommand (sup : Supply) (s : State) (t : Tokens) :
    Begun (ItemPtr × Nread) × State :=
  let refuse (str : String) : Begun (ItemPtr × Nread) × State :=
    (.refused (Resp.outString false (text str)), s)
  if t.ntokens < 3 then refuse "ERROR"
  else if keyMaxLength < (t.word 1).length then refuse "CLIENT_ERROR bad command line format"
  else if t.ntokens = 3 then refuse "CLIENT_ERROR bad command line format"
  else if mflagMaxOptLength < t.ntokens then refuse "CLIENT_ERROR options flags too long"
  else
    match validLength (t.word 2) with
    | none => refuse "CLIENT_ERROR bad command line format"
    | some vlen =>
      match msetItem sup s t vlen with
      | (.ok req, s) => (.upload req vlen, s)
      | (.error errstr, s) => (.swallow (Resp.outString false (text errstr)) vlen, s)

/-- The handlers with the storage commands as above. -/
def Handlers.storing (h : Handlers State (ItemPtr × Nread)) (sup : Supply) :
    Handlers State (ItemPtr × Nread) :=
  { h with update := processUpdateCommand sup, mset := processMsetCommand sup }

end Kvsev.Connection
