import Kvsev.Cmac.Cmac
import Kvsev.Merkle.Represents
import Kvsev.Server.Arithmetic

/-!
# The text protocol

The storage commands arrive in two parts. `process_update_command` allocates the
item that the value is read into, and `complete_nread_ascii` stores it,
computes its code, appends the code to the tree and writes the leaf's supposed
index into the item. The last three steps do not depend on what the store did,
and they always act on the uploaded item.

`process_get_command` asks the tree about the code in the item and prints a line
when the answer is no. A `get` of several keys treats them one by one.
-/

namespace Kvsev.Server

open Merkle Cmac Memory

/-- `cmac_key` -/
def cmacKey : AesBlock :=
  #v[0x2b, 0x7e, 0x15, 0x16, 0x28, 0xae, 0xd2, 0xa6,
    0xab, 0xf7, 0x15, 0x88, 0x09, 0xcf, 0x4f, 0x3c]

/-- `KEY_MAX_LENGTH` -/
def keyMaxLength : Nat := 250

/-- `MFLAG_MAX_OPAQUE_LENGTH` -/
def mflagMaxOpaqueLength : Nat := 32

/-- `INT_MAX` -/
def intMax : Nat := 2 ^ 31 - 1

/-- `IT_REFCOUNT_LIMIT` -/
def itRefcountLimit : Nat := 60000

/-- A storage request with its data block, and everything outside of the
client's and the server's hands: the allocations, and the bytes behind the
header of an item whose value is in a chain of chunks. -/
structure StoreRequest where
  key : Key
  flags : Nat
  exptime : Nat
  cas : Nat
  /-- As many bytes as the value and its line end should have. -/
  data : List UInt8
  setStale : Bool
  alloc : ItemAlloc
  copy : CopyInput
  flat : Nat → UInt8
  treeAllocs : Nat → Alloc

/-- A request without flags, expiry and unique, for which memory is found and
all of it was zero. -/
def plainRequest (key : Key) (data : List UInt8) : StoreRequest where
  key := key
  flags := 0
  exptime := 0
  cas := 0
  data := data
  setStale := false
  alloc := some ⟨Vector.replicate 32 0, 0, fun _ => 0⟩
  copy := ⟨some ⟨Vector.replicate 32 0, 0, fun _ => 0⟩, false, fun _ => 0⟩
  flat := fun _ => 0
  treeAllocs := fun _ => some fun _ => 0

/-! ## Storage commands -/

/-- Allocate the item for a request and read the data block into it. -/
def uploadItem (s : State) (req : StoreRequest) (data : List UInt8) : Option ItemPtr × State :=
  match doItemAlloc s req.key req.flags req.exptime data.length req.alloc with
  | (none, s) => (none, s)
  | (some p, s) => (some p, s.modify p fun it => { itemSetCas s it req.cas with data })

theorem uploadItem_none {s s' : State} {req : StoreRequest} {data : List UInt8}
    (ran : uploadItem s req data = (none, s')) : s' = s := by
  unfold uploadItem at ran
  rcases alloc : doItemAlloc s req.key req.flags req.exptime data.length req.alloc with ⟨found, s₁⟩
  rw [alloc] at ran
  cases found with
  | none =>
    obtain rfl := (Prod.mk.inj ran).2
    exact doItemAlloc_none alloc
  | some p => cases ran

/-- A `set` whose allocation failed drops the old item. -/
def dropOnFailedAlloc (s : State) (key : Key) (comm : Nread) : State :=
  if comm = .set then
    match doItemGet s key false with
    | (none, s) => s
    | (some p, s) => doItemRemove (doItemUnlink s p) p
  else s

/-- What `ITEM_data` points at: the value, or the header's own chunk. -/
def itemData (it : Item) (flat : Nat → UInt8) (i : Nat) : Exec UInt8 :=
  if it.chunked then .ok (flat i) else Exec.access it.data[i]?

/-- The `mac` field after a code was written over its first half. -/
def writeMac (mac : Vector UInt8 32) (code : AesBlock) : Vector UInt8 32 :=
  Vector.ofFn fun i : Fin 32 => if h : i.val < 16 then code[i.val] else mac[i.val]

/-- The call of `AES_CMAC`. -/
def macStep (s : State) (p : ItemPtr) (flat : Nat → UInt8) : Exec State := do
  let it := s.heap p
  let code ← aesCmac cmacKey (itemData it flat) it.nbytes
  return s.modify p fun it => { it with mac := writeMac it.mac code }

/-- The call of `mt_add`; a failure is only printed. -/
def treeStep (s : State) (p : ItemPtr) (allocs : Nat → Alloc) : Exec (MtError × State) := do
  let (r, merkle) ← mtAdd s.merkle (some (s.heap p).mac.toList) 16 allocs
  return (r, { s with merkle })

/-- The assignment to `mt_index`. -/
def indexStep (s : State) (p : ItemPtr) : State :=
  s.modify p fun it => { it with mtIndex := u32Pred (u32 s.totalItems) }

/-- Whether the data block ends as it should. -/
def endsLine (data : List UInt8) : Bool := data.drop (data.length - 2) = [13, 10]

/-- The reply to a storage command. -/
def storeReply : StoreItemType → String
  | .stored => "STORED"
  | .exists => "EXISTS"
  | .notFound => "NOT_FOUND"
  | .notStored => "NOT_STORED"
  | .tooLarge | .noMemory => "SERVER_ERROR Unhandled storage type."

/-- `complete_nread_ascii`, for the uploaded item `p`. -/
def completeNreadAscii (s : State) (p : ItemPtr) (comm : Nread) (req : StoreRequest) :
    Exec (String × State) := do
  if endsLine (s.heap p).data then
    let (ret, s) := doStoreItem s p comm req.setStale req.copy
    let s ← macStep s p req.flat
    let (_, s) ← treeStep s p req.treeAllocs
    let s := indexStep s p
    return (storeReply ret, doItemRemove s p)
  else return ("CLIENT_ERROR bad data chunk", doItemRemove s p)

/-- `process_update_command` and, once the data block is read,
`complete_nread_ascii`. -/
def processUpdateCommand (s : State) (comm : Nread) (req : StoreRequest) :
    Exec (String × State) :=
  if keyMaxLength < req.key.length ∨ intMax < req.data.length then
    .ok ("CLIENT_ERROR bad command line format", s)
  else
    match uploadItem s req req.data with
    | (some p, s) => completeNreadAscii s p comm req
    | (none, s) =>
      let reply :=
        if itemSizeOk s.settings req.key.length req.flags req.data.length then
          "SERVER_ERROR out of memory storing object"
        else "SERVER_ERROR object too large for cache"
      .ok (reply, dropOnFailedAlloc s req.key comm)

/-! ## Retrieval -/

/-- The write of `item_touch`. -/
def setExptime (s : State) (p : ItemPtr) (touch : Option Nat) : State :=
  match touch with
  | none => s
  | some exptime => s.modify p fun it => { it with exptime }

/-- `limited_get`; `touch` is the new expiry of `gat` and `gats`. -/
def limitedGet (s : State) (key : Key) (touch : Option Nat) (bump : Bool) :
    Option ItemPtr × State :=
  match doItemGet s key bump with
  | (none, s) => (none, s)
  | (some p, s) =>
    let s := setExptime s p touch
    if itRefcountLimit < (s.heap p).refcount then (none, doItemRemove s p) else (some p, s)

/-- The question the server asks the tree about an item. -/
def verifyItem (s : State) (p : ItemPtr) : Exec MtError :=
  mtVerify s.merkle (some (s.heap p).mac.toList) 16 (s.heap p).mtIndex

/-- A `VALUE` block. -/
structure Value where
  key : Key
  flags : Nat
  length : Nat
  cas : Option Nat
  data : List UInt8
  deriving DecidableEq, Repr

/-- `get`, `gets`, `gat` or `gats`. -/
structure GetRequest where
  keys : List Key
  returnCas : Bool
  touch : Option Nat
  bump : Bool

/-- What a retrieval has printed, queued and taken references to. -/
structure GetProgress where
  log : List String
  values : List Value
  held : List ItemPtr
  deriving DecidableEq, Repr

/-- The block that is queued for a hit. -/
def valueBlock (s : State) (it : Item) (returnCas : Bool) : Value where
  key := it.key
  flags := it.flags
  length := it.nbytes - 2
  cas := if returnCas then some (itemGetCas s it) else none
  data := it.data

/-- The part of `process_get_command` for one key. -/
def processGetKey (s : State) (req : GetRequest) (key : Key) (done : GetProgress) :
    Exec (GetProgress × State) :=
  match limitedGet s key req.touch req.bump with
  | (none, s) => .ok (done, s)
  | (some p, s) => do
    let r ← verifyItem s p
    let warning := if r = .success then [] else ["[SEV]\tMerkle Tree veriification failed!\n"]
    return ({ log := done.log ++ warning
              values := done.values ++ [valueBlock s (s.heap p) req.returnCas]
              held := done.held ++ [p] }, s)

/-- The loop over the keys; `false` when a key is too long. -/
def processGetKeys (req : GetRequest) : State → List Key → GetProgress →
    Exec (Bool × GetProgress × State)
  | s, [], done => .ok (true, done, s)
  | s, key :: keys, done =>
    if keyMaxLength < key.length then .ok (false, done, s)
    else do
      let (done, s) ← processGetKey s req key done
      processGetKeys req s keys done

/-- What a retrieval sends and what it prints. -/
structure GetReply where
  log : List String
  values : List Value
  line : String
  deriving DecidableEq, Repr

/-- `process_get_command` -/
def processGetCommand (s : State) (req : GetRequest) : Exec (GetReply × State) := do
  let (complete, done, s) ← processGetKeys req s req.keys ⟨[], [], []⟩
  if complete then
    return (⟨done.log, done.values, "END"⟩, { s with pending := s.pending ++ done.held })
  else
    return (⟨done.log, [], "CLIENT_ERROR bad command line format"⟩,
      done.held.foldl doItemRemove s)

/-! ## Removal and arithmetic -/

/-- `process_delete_command` -/
def processDeleteCommand (s : State) (key : Key) : String × State :=
  if keyMaxLength < key.length then ("CLIENT_ERROR bad command line format", s)
  else
    match doItemGet s key false with
    | (none, s) => ("NOT_FOUND", s)
    | (some p, s) => ("DELETED", doItemRemove (doItemUnlink s p) p)

/-- `process_arithmetic_command`; the reply to a success is the new number. -/
def processArithmeticCommand (s : State) (req : DeltaRequest) : String × State :=
  if keyMaxLength < req.key.length then ("CLIENT_ERROR bad command line format", s)
  else
    let req := { req with cas := 0 }
    let (r, s') := doAddDelta s req
    match r with
    | .ok =>
      let number := match deltaTarget s req with
        | some (_, text) => String.ofList (text.map fun c => Char.ofNat c.toNat)
        | none => ""
      (number, s')
    | .nonNumeric => ("CLIENT_ERROR cannot increment or decrement non-numeric value", s')
    | .eom => ("SERVER_ERROR out of memory", s')
    | .itemNotFound => ("NOT_FOUND", s')
    | .itemCasMismatch => ("", s')

/-! ## What the parts of a storage command do -/

/-- The bytes that the code of an item is computed from. -/
def macInput (it : Item) (flat : Nat → UInt8) : List UInt8 :=
  if it.chunked then (List.range it.nbytes).map flat else it.data

/-- The `mac` field that the server computes for an item. -/
def itemMac (it : Item) (flat : Nat → UInt8) : Vector UInt8 32 :=
  writeMac it.mac (cmacOf cmacKey (macInput it flat))

theorem macStep_eq (s : State) (p : ItemPtr) (flat : Nat → UInt8) :
    macStep s p flat = .ok (s.modify p fun it => { it with mac := itemMac it flat }) := by
  have length : (macInput (s.heap p) flat).length = (s.heap p).nbytes := by
    simp only [macInput]
    split
    · simp
    · rfl
  have agree : ∀ i (h : i < (macInput (s.heap p) flat).length),
      itemData (s.heap p) flat i = .ok (macInput (s.heap p) flat)[i] := by
    intro i inRange
    simp only [itemData]
    split
    · rename_i chunked
      simp [macInput, chunked]
    · rename_i plain
      have inData : i < (s.heap p).data.length := Nat.lt_of_lt_of_eq inRange length
      simp [macInput, plain, List.getElem?_eq_getElem inData]
  have code := aesCmac_value cmacKey agree
  rw [length] at code
  simp only [macStep, code, Exec.ok_bind, Exec.pure_eq_ok, State.modify, itemMac]

/-- The item after its code and its index were written. -/
def stamped (s : State) (it : Item) (flat : Nat → UInt8) : Item :=
  { it with mac := itemMac it flat, mtIndex := u32Pred (u32 s.totalItems) }

/-- The state in which a storage command leaves the server, when the tree
library returned `merkle`. -/
def authenticated (s : State) (p : ItemPtr) (flat : Nat → UInt8) (merkle : Mt) : State :=
  { s.modify p fun it => stamped s it flat with merkle }

@[simp] theorem authenticated_heap_self (s : State) (p : ItemPtr) (flat : Nat → UInt8) (mt : Mt) :
    (authenticated s p flat mt).heap p = stamped s (s.heap p) flat := by
  rw [authenticated, State.modify_heap_self]

variable {s : State} {p : ItemPtr}

theorem authenticated_heap_of_ne {q : ItemPtr} (flat : Nat → UInt8) (mt : Mt)
    (ne : q ≠ p) : (authenticated s p flat mt).heap q = s.heap q := by
  rw [authenticated, State.modify_heap_of_ne _ ne]

theorem WellLinked.authenticated (table : WellLinked s) (p : ItemPtr)
    (flat : Nat → UInt8) (mt : Mt) : WellLinked (authenticated s p flat mt) := by
  refine table.of_same rfl (Nat.le_refl _) fun q _ => ?_
  by_cases here : q = p
  · subst q
    simp [stamped]
  · rw [authenticated_heap_of_ne flat mt here]
    exact ⟨rfl, rfl⟩

variable {req : StoreRequest}

/-- A data block that ends as it should is stored, stamped and released. -/
theorem completeNreadAscii_eq {comm : Nread}
    {r : MtError} {merkle : Mt} (ends : endsLine (s.heap p).data)
    (added : mtAdd (doStoreItem s p comm req.setStale req.copy).2.merkle
      (some (itemMac ((doStoreItem s p comm req.setStale req.copy).2.heap p) req.flat).toList) 16
      req.treeAllocs = .ok (r, merkle)) :
    completeNreadAscii s p comm req =
      .ok (storeReply (doStoreItem s p comm req.setStale req.copy).1,
        doItemRemove (authenticated (doStoreItem s p comm req.setStale req.copy).2 p req.flat
          merkle) p) := by
  simp only [completeNreadAscii]
  rw [if_pos ends]
  generalize doStoreItem s p comm req.setStale req.copy = stored at added ⊢
  obtain ⟨ret, s₁⟩ := stored
  simp only [macStep_eq, Exec.ok_bind, treeStep, State.modify_heap_self, State.modify_merkle, added,
    Exec.pure_eq_ok]
  have same :
      indexStep { s₁.modify p fun it => { it with mac := itemMac it req.flat } with merkle } p =
      authenticated s₁ p req.flat merkle := by
    simp [indexStep, authenticated, State.modify, stamped]
  rw [same]

variable {s' : State}

/-- Whatever the tree library answers, the command ends like this. -/
theorem completeNreadAscii_ok {comm : Nread} {reply : String} (ends : endsLine (s.heap p).data)
    (ran : completeNreadAscii s p comm req = .ok (reply, s')) :
    ∃ merkle, s' = doItemRemove
      (authenticated (doStoreItem s p comm req.setStale req.copy).2 p req.flat merkle) p := by
  cases added : mtAdd (doStoreItem s p comm req.setStale req.copy).2.merkle
      (some (itemMac ((doStoreItem s p comm req.setStale req.copy).2.heap p) req.flat).toList) 16
      req.treeAllocs with
  | ok result =>
    obtain ⟨r, merkle⟩ := result
    cases (completeNreadAscii_eq ends added).symm.trans ran
    exact ⟨merkle, rfl⟩
  | error trap =>
    unfold completeNreadAscii at ran
    rw [if_pos ends] at ran
    simp only [macStep_eq, Exec.ok_bind, treeStep, State.modify_heap_self, State.modify_merkle,
      added, Exec.error_bind] at ran
    cases ran

theorem uploadItem_alloc {data : List UInt8} (ran : uploadItem s req data = (some p, s')) :
    ∃ s₁, doItemAlloc s req.key req.flags req.exptime data.length req.alloc = (some p, s₁) ∧
      s' = s₁.modify p fun it => { itemSetCas s₁ it req.cas with data } := by
  unfold uploadItem at ran
  rcases alloc : doItemAlloc s req.key req.flags req.exptime data.length req.alloc with
    ⟨_ | q, s₁⟩ <;> rw [alloc] at ran <;> cases ran
  exact ⟨s₁, rfl, rfl⟩

/-- Reading a data block into a fresh item. -/
theorem uploadItem_some {data : List UInt8} (ran : uploadItem s req data = (some p, s')) :
    p = s.next ∧ s'.next = s.next + 1 ∧ (s'.heap p).key = req.key ∧ (s'.heap p).data = data ∧
      (s'.heap p).chunked = isLarge s.settings req.key.length req.flags data.length ∧
      itemSizeOk s.settings req.key.length req.flags data.length = true := by
  obtain ⟨s₁, alloc, rfl⟩ := uploadItem_alloc ran
  obtain ⟨ok, left, given, fresh, next, item⟩ := doItemAlloc_some alloc
  rw [State.modify_heap_self, item]
  exact ⟨fresh, next, by simp [newItem], rfl, by simp [newItem], ok⟩

theorem uploadItem_lt {data : List UInt8}
    (ran : uploadItem s req data = (some p, s')) : p < s'.next := by
  obtain ⟨fresh, next, _⟩ := uploadItem_some ran
  rw [fresh, next]
  exact Nat.lt_succ_self _

theorem Shrinks.uploadItem (s : State) (req : StoreRequest) (data : List UInt8) :
    Shrinks Item.core s (uploadItem s req data).2 := by
  have grown := Shrinks.doItemAlloc s req.key req.flags req.exptime data.length req.alloc
  simp only [Server.uploadItem]
  rcases alloc : Server.doItemAlloc s req.key req.flags req.exptime data.length req.alloc with
    ⟨found, s₁⟩
  rw [alloc] at grown
  cases found with
  | none => exact grown
  | some q =>
    -- The write goes to the new item, which did not exist before.
    obtain ⟨_, _, _, fresh, _, _⟩ := doItemAlloc_some alloc
    have old : ∀ p, p < s.next → p ≠ q := fun p lt => fresh ▸ Nat.ne_of_lt lt
    refine { grown with view := fun p lt => ?_, table := fun table => ?_ }
    · rw [State.modify_heap_of_ne _ (old p lt)]
      exact grown.view p lt
    · have kept : Shrinks (fun _ => ()) s₁ (s₁.modify q fun it =>
          { itemSetCas s₁ it req.cas with data }) :=
        .modify s₁ q (fun _ => rfl) (fun _ => by simp) fun _ => by simp
      exact kept.table (grown.table table)

theorem Sheds.dropOnFailedAlloc (s : State) (key : Key) (comm : Nread) :
    Sheds s (dropOnFailedAlloc s key comm) := by
  unfold Server.dropOnFailedAlloc
  split
  · rcases ran : Server.doItemGet s key false with ⟨_ | p, s₁⟩
    · exact .doItemGet ran
    · exact (Sheds.doItemGet ran).trans (Sheds.drop s₁ p)
  · exact .refl

theorem Sheds.processDeleteCommand (s : State) (key : Key) :
    Sheds s (processDeleteCommand s key).2 := by
  unfold Server.processDeleteCommand
  split
  · exact .refl
  · rcases ran : Server.doItemGet s key false with ⟨_ | p, s₁⟩
    · exact .doItemGet ran
    · exact (Sheds.doItemGet ran).trans (Sheds.drop s₁ p)

theorem Shrinks.limitedGet (s : State) (key : Key) (touch : Option Nat) (bump : Bool) :
    Shrinks Item.core s (limitedGet s key touch bump).2 := by
  have get := Shrinks.doItemGet s key bump
  simp only [Server.limitedGet]
  rcases ran : Server.doItemGet s key bump with ⟨found, s₁⟩
  rw [ran] at get
  cases found with
  | none => exact get
  | some p =>
    have touched : Shrinks Item.core s₁ (setExptime s₁ p touch) := by
      simp only [setExptime]
      split
      · exact .refl _ s₁
      · exact .modify s₁ p (fun _ => rfl) (fun _ => rfl) fun _ => rfl
    dsimp only
    split
    · exact (get.trans touched).trans (Shrinks.doItemRemove _ p)
    · exact get.trans touched

theorem Shrinks.removeAll (s : State) (held : List ItemPtr) :
    Shrinks Item.core s (held.foldl Server.doItemRemove s) := by
  induction held generalizing s with
  | nil => exact .refl _ s
  | cons p held ih => exact (Shrinks.doItemRemove s p).trans (ih _)

theorem Shrinks.processGetKey {req : GetRequest} {key : Key}
    {done done' : GetProgress} (ran : processGetKey s req key done = .ok (done', s')) :
    Shrinks Item.core s s' := by
  have shrinks := Shrinks.limitedGet s key req.touch req.bump
  unfold Server.processGetKey at ran
  rcases found : Server.limitedGet s key req.touch req.bump with ⟨hit, s₁⟩
  rw [found] at ran shrinks
  cases hit with
  | none =>
    cases ran
    exact shrinks
  | some p =>
    obtain ⟨r, _, ran⟩ := Exec.bind_eq_ok.mp ran
    cases ran
    exact shrinks

theorem Shrinks.processGetKeys {req : GetRequest} {keys : List Key} {done done' : GetProgress}
    {complete : Bool} (ran : processGetKeys req s keys done = .ok (complete, done', s')) :
    Shrinks Item.core s s' := by
  induction keys generalizing s done with
  | nil =>
    cases ran
    exact .refl _ _
  | cons key keys ih =>
    rw [Server.processGetKeys] at ran
    split at ran
    · cases ran
      exact .refl _ _
    · obtain ⟨⟨done₁, s₁⟩, first, rest⟩ := Exec.bind_eq_ok.mp ran
      exact (Shrinks.processGetKey first).trans (ih rest)

theorem Shrinks.processGetCommand {req : GetRequest} {reply : GetReply}
    (ran : processGetCommand s req = .ok (reply, s')) : Shrinks Item.core s s' := by
  obtain ⟨⟨complete, done, s₁⟩, keys, ran⟩ := Exec.bind_eq_ok.mp ran
  have shrinks := Shrinks.processGetKeys keys
  cases complete with
  | true =>
    cases ran
    have queued : Shrinks Item.core s₁ { s₁ with pending := s₁.pending ++ done.held } :=
      .of_same rfl rfl rfl rfl rfl rfl
    exact shrinks.trans queued
  | false =>
    cases ran
    exact shrinks.trans (.removeAll s₁ done.held)

/-- A lookup that hits returns the item the table holds. -/
theorem limitedGet_some {key : Key} {touch : Option Nat} {bump : Bool}
    (found : limitedGet s key touch bump = (some p, s')) :
    s.assoc key = some p := by
  unfold limitedGet at found
  rcases ran : doItemGet s key bump with ⟨hit, s₁⟩
  rw [ran] at found
  cases hit with
  | none => cases found
  | some q =>
    have here := (doItemGet_some (congrArg Prod.fst ran)).1
    dsimp only at found
    split at found
    · cases found
    · cases found
      exact here

theorem setExptime_data (s : State) (p : ItemPtr) (touch : Option Nat) :
    ((setExptime s p touch).heap p).data = (s.heap p).data ∧
      ((setExptime s p touch).heap p).refcount = (s.heap p).refcount := by
  cases touch <;> simp [setExptime]

theorem limitedGet_live {key : Key} (live : liveItem s key = some p)
    (calm : (s.heap p).refcount < itRefcountLimit) (touch : Option Nat) (bump : Bool) :
    ∃ s', limitedGet s key touch bump = (some p, s') ∧ (s'.heap p).data = (s.heap p).data := by
  obtain ⟨s₁, ran, -, data, refcount⟩ := doItemGet_live live bump
  obtain ⟨data', refcount'⟩ := setExptime_data s₁ p touch
  have free : ¬itRefcountLimit < ((setExptime s₁ p touch).heap p).refcount := by omega
  refine ⟨setExptime s₁ p touch, ?_, data'.trans data⟩
  simp only [limitedGet, ran, if_neg free]

/-- The item that `limited_get` would return now. -/
def visibleItem (s : State) (key : Key) : Option ItemPtr :=
  match liveItem s key with
  | none => none
  | some p => if (s.heap p).refcount < itRefcountLimit then some p else none

theorem limitedGet_fst (s : State) (key : Key) (touch : Option Nat) (bump : Bool) :
    (limitedGet s key touch bump).1 = visibleItem s key := by
  simp only [visibleItem]
  cases live : liveItem s key with
  | none =>
    have missed := doItemGet_fst s key bump
    rw [live] at missed
    simp only [limitedGet]
    rcases ran : doItemGet s key bump with ⟨found, s₁⟩
    rw [ran] at missed
    cases missed
    rfl
  | some p =>
    by_cases calm : (s.heap p).refcount < itRefcountLimit
    · obtain ⟨s₁, found, _⟩ := limitedGet_live live calm touch bump
      simp [found, calm]
    · obtain ⟨s₁, ran, -, -, refcount⟩ := doItemGet_live live bump
      obtain ⟨_, refcount'⟩ := setExptime_data s₁ p touch
      have full : itRefcountLimit < ((setExptime s₁ p touch).heap p).refcount := by omega
      simp [limitedGet, ran, full, calm]

theorem processArithmeticCommand_state (s : State) (req : DeltaRequest) :
    (processArithmeticCommand s req).2 =
      if keyMaxLength < req.key.length then s else (doAddDelta s { req with cas := 0 }).2 := by
  unfold processArithmeticCommand
  split
  · rfl
  · dsimp only
    split <;> rfl

end Kvsev.Server
