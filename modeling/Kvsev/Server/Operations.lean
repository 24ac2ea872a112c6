import Kvsev.Server.Text
import Kvsev.Transition.Run

/-!
# Everything that changes the table

Besides the text protocol, the binary protocol stores items, the slab mover
copies them to other pages, and `stats reset` zeroes the counter that the text
protocol takes leaf indices from. None of these knows of the tree. The server
runs one operation after the other here; `step` is one of them.
-/

namespace Kvsev.Server

open Memory

/-! ## The binary protocol -/

/-- The command that a binary request is stored with: with a unique of its own,
`set`, `add` and `replace` become a `cas`. -/
def binaryNread (s : State) (comm : Nread) (cas : Nat) : Nread :=
  match comm with
  | .append => .append
  | .prepend => .prepend
  | comm => if s.settings.useCas ∧ cas ≠ 0 then .cas else comm

/-- `complete_update_bin`, for the uploaded item `p`. -/
def completeUpdateBin (s : State) (p : ItemPtr) (comm : Nread) (copy : CopyInput) :
    StoreItemType × State :=
  let (ret, s) := doStoreItem s p comm false copy
  (ret, doItemRemove s p)

/-- The request that the item is allocated for: append and prepend have neither
flags nor an expiry. -/
def binaryRequest (comm : Nread) (req : StoreRequest) : StoreRequest :=
  match comm with
  | .append | .prepend => { req with flags := 0, exptime := 0 }
  | _ => req

/-- `process_bin_update` or `process_bin_append_prepend` and, once the value is
read, `complete_update_bin`. The server adds the line end. -/
def processBinUpdate (s : State) (comm : Nread) (req : StoreRequest) : StoreItemType × State :=
  let req := binaryRequest comm req
  match uploadItem s req (req.data ++ [13, 10]) with
  | (some p, s) => completeUpdateBin s p (binaryNread s comm req.cas) req.copy
  | (none, s) =>
    let status :=
      if itemSizeOk s.settings req.key.length req.flags (req.data.length + 2) then
        StoreItemType.noMemory
      else .tooLarge
    (status, dropOnFailedAlloc s req.key comm)

/-! ## The slab mover -/

/-- What decides about one step of the mover besides the item: whether the
chunk at hand is a part of a chain rather than a header, whether there is memory
for a copy, and whether busy items are deleted by now. -/
structure MoveInput where
  part : Bool
  room : Bool
  deletesBusy : Bool
  deriving DecidableEq, Repr

/-- Whether the mover throws the item away instead of copying it. -/
def moveDrops (s : State) (it : Item) (input : MoveInput) : Bool :=
  (it.exptime ≠ 0 ∧ it.exptime < s.currentTime) ∨ itemIsFlushed s it ∨ ¬input.room

/-- `slab_rebalance_move`, for a chunk of the item `p`. -/
def slabRebalanceMove (s : State) (p : ItemPtr) (input : MoveInput) : State :=
  let it := s.heap p
  if it.linked then
    let s := refcountIncr s p
    if it.refcount = 1 then
      if moveDrops s it input then
        (doItemUnlink s p).modify p fun it => { it with refcount := 0 }
      else if input.part then doItemRemove s p
      else
        let copy := { it with linked := false, refcount := 0 }
        let new := s.next
        let s := { s with heap := Function.update s.heap new copy, next := new + 1 }
        (doItemReplace s p new).modify p fun it => { it with refcount := 0 }
    else
      let s := if input.deletesBusy ∧ 1 < it.refcount then doItemUnlink s p else s
      doItemRemove s p
  else s

/-! ## Steps -/

/-- What can happen to the server. -/
inductive Operation where
  | update (comm : Nread) (req : StoreRequest)
  | arithmetic (req : DeltaRequest)
  | delete (key : Key)
  | get (req : GetRequest)
  | binUpdate (comm : Nread) (req : StoreRequest)
  | binArithmetic (req : DeltaRequest)
  | slabMove (p : ItemPtr) (input : MoveInput)
  | statsReset
  | flushAll (newOldest : Nat)
  | tick
  | evict (p : ItemPtr)
  | responseSent

/-- `stats_reset`, as far as it concerns the items. -/
def statsReset (s : State) : State := { s with totalItems := 0 }

/-- `process_flush_all_command` -/
def flushAll (s : State) (newOldest : Nat) : State :=
  if s.settings.useCas then
    let oldestLive := newOldest - 1
    if oldestLive ≤ s.currentTime then
      let casId := u64 (s.casId + 1)
      { s with oldestLive, oldestCas := casId, casId }
    else { s with oldestLive }
  else { s with oldestLive := newOldest }

/-- Give back the item of the oldest response. -/
def responseSent (s : State) : State :=
  match s.pending with
  | [] => s
  | p :: pending => doItemRemove { s with pending } p

/-- One operation, run to its end. -/
def step (s : State) : Operation → Exec State
  | .update comm req => do
    let (_, s) ← processUpdateCommand s comm req
    return s
  | .arithmetic req => .ok (processArithmeticCommand s req).2
  | .delete key => .ok (processDeleteCommand s key).2
  | .get req => do
    let (_, s) ← processGetCommand s req
    return s
  | .binUpdate comm req => .ok (processBinUpdate s comm req).2
  | .binArithmetic req => .ok (doAddDelta s req).2
  | .slabMove p input => .ok (slabRebalanceMove s p input)
  | .statsReset => .ok (statsReset s)
  | .flushAll newOldest => .ok (flushAll s newOldest)
  | .tick => .ok { s with currentTime := s.currentTime + 1 }
  | .evict p => .ok (doItemUnlink s p)
  | .responseSent => .ok (responseSent s)

/-! ## Steps that link nothing -/

/-- A binary storage command that links nothing, seen from the state before. -/
def BinUpdateLinksNothing (s : State) (comm : Nread) (req : StoreRequest) : Prop :=
  match uploadItem s (binaryRequest comm req) (req.data ++ [13, 10]) with
  | (none, _) => True
  | (some p, s') =>
    linksUpload s' (s'.heap p) (binaryNread s' comm req.cas) false = false ∧
      concatenates s' (s'.heap p) (binaryNread s' comm req.cas) false req.copy = false

/-- A step of the mover that copies no header. -/
def MoveCopiesNothing (s : State) (p : ItemPtr) (input : MoveInput) : Prop :=
  (s.heap p).linked ∧ (s.heap p).refcount = 1 ∧ input.part = false →
    moveDrops s (s.heap p) input = true

namespace Shrinks

theorem flushAll (s : State) (newOldest : Nat) : Shrinks Item.core s (flushAll s newOldest) := by
  unfold Server.flushAll
  split
  · dsimp only
    split
    · exact .of_same rfl rfl rfl rfl rfl rfl
    · exact .of_same rfl rfl rfl rfl rfl rfl
  · exact .of_same rfl rfl rfl rfl rfl rfl

theorem responseSent (s : State) : Shrinks Item.core s (responseSent s) := by
  simp only [Server.responseSent]
  split
  · exact .refl _ s
  · rename_i p pending _
    have dequeued : Shrinks Item.core s { s with pending } :=
      .of_same rfl rfl rfl rfl rfl rfl
    exact dequeued.trans (.doItemRemove _ p)

theorem processBinUpdate {s : State} {comm : Nread} {req : StoreRequest}
    (nothing : BinUpdateLinksNothing s comm req) :
    Shrinks Item.core s (processBinUpdate s comm req).2 := by
  unfold BinUpdateLinksNothing at nothing
  unfold Server.processBinUpdate
  have data : (binaryRequest comm req).data = req.data := by cases comm <;> rfl
  have copy : (binaryRequest comm req).copy = req.copy := by cases comm <;> rfl
  have cas : (binaryRequest comm req).cas = req.cas := by cases comm <;> rfl
  dsimp only
  rw [data, copy, cas]
  have grown := Shrinks.uploadItem s (binaryRequest comm req) (req.data ++ [13, 10])
  rcases ran : Server.uploadItem s (binaryRequest comm req) (req.data ++ [13, 10]) with ⟨found, s₁⟩
  rw [ran] at nothing grown
  cases found with
  | none => exact grown.trans (.of_sheds (.dropOnFailedAlloc s₁ _ comm))
  | some p =>
    obtain ⟨not, plain⟩ := nothing
    exact (grown.trans (doStoreItem_shrinks not plain).2).trans (.doItemRemove _ p)

theorem slabRebalanceMove {s : State} {p : ItemPtr} {input : MoveInput}
    (stays : MoveCopiesNothing s p input) :
    Shrinks Item.core s (slabRebalanceMove s p input) := by
  unfold Server.slabRebalanceMove
  have held := Shrinks.refcountIncr s p
  have drops : moveDrops (Server.refcountIncr s p) (s.heap p) input =
      moveDrops s (s.heap p) input := rfl
  dsimp only
  split
  · rename_i linked
    split
    · rename_i alone
      rw [drops]
      split
      · exact (held.trans (.doItemUnlink _ p)).trans
          (.modify _ p (fun _ => rfl) (fun _ => rfl) fun _ => rfl)
      · rename_i kept
        split
        · exact held.trans (.doItemRemove _ p)
        · rename_i header
          exact absurd (stays ⟨linked, alone, by simpa using header⟩) kept
    · refine .trans ?_ (.doItemRemove _ p)
      split
      · exact held.trans (.doItemUnlink _ p)
      · exact held
  · exact .refl _ s

end Shrinks

end Kvsev.Server
