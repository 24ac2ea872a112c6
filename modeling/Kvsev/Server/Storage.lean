import Kvsev.Server.Items

/-!
# The storage commands

`do_store_item` decides what a storage command does to the table: it may link
the uploaded item, link a new item built from the old and the uploaded value
(append and prepend), or link nothing. Which of these happens depends on the
state before the call; `linksUpload` and `concatenates` say how.
-/

namespace Kvsev.Server

/-- The `NREAD_*` commands. -/
inductive Nread where
  | add
  | set
  | replace
  | append
  | prepend
  | cas
  deriving DecidableEq, Repr

/-- `enum store_item_type` -/
inductive StoreItemType where
  | notStored
  | stored
  | exists
  | notFound
  | tooLarge
  | noMemory
  deriving DecidableEq, Repr

/-- `enum cas_result`, for a key that has an item. -/
inductive CasResult where
  | none
  | match
  | badval
  | stale
  deriving DecidableEq, Repr

/-- What append and prepend need from outside: the new item's memory, whether
copying into a chain of chunks runs out of memory, and the bytes behind the
header of an uploaded item that is itself a chain. -/
structure CopyInput where
  alloc : ItemAlloc
  copyFails : Bool
  flat : Nat → UInt8

/-- The CAS test at the start of `do_store_item`. -/
def casResult (s : State) (it old : Item) (setStale : Bool) : CasResult :=
  if itemGetCas s it = 0 then .none
  else if itemGetCas s it = itemGetCas s old then .match
  else if setStale ∧ itemGetCas s it < itemGetCas s old then .stale
  else .badval

/-- The value of a concatenation, or `none` where `_store_item_copy_data` fails.
A plain copy of an item that is a chain takes the bytes behind its header. -/
def copyData (comm : Nread) (old add new : Item) (copy : CopyInput) : Option (List UInt8) :=
  if new.chunked then
    if copy.copyFails then none
    else if comm = .append then some (old.data.take (old.nbytes - 2) ++ add.data)
    else some (add.data.take (add.nbytes - 2) ++ old.data)
  else
    let addBytes := if add.chunked then (List.range add.nbytes).map copy.flat else add.data
    if comm = .append then some (old.data.take (old.nbytes - 2) ++ addBytes)
    else some (addBytes.take (add.nbytes - 2) ++ old.data)

/-- The branch of `do_store_item` for append and prepend on an existing item. -/
def storeConcat (s : State) (p old : ItemPtr) (comm : Nread) (copy : CopyInput) :
    StoreItemType × State :=
  let it := s.heap p
  let oldIt := s.heap old
  match doItemAlloc s it.key oldIt.flags oldIt.exptime (it.nbytes + oldIt.nbytes - 2)
      copy.alloc with
  | (none, s) => (.notStored, doItemRemove s old)
  | (some new, s) =>
    match copyData comm oldIt it (s.heap new) copy with
    | none => (.notStored, doItemRemove (doItemRemove s old) new)
    | some data =>
      let s := s.modify new fun it => { it with data }
      (.stored, doItemRemove (doItemRemove (doItemReplace s old new) old) new)

/-- Replace the old item by the uploaded one and release the old one. -/
def storeOver (s : State) (p old : ItemPtr) : StoreItemType × State :=
  (.stored, doItemRemove (doItemReplace s old p) old)

/-- The branch of `do_store_item` for a key that has an item. -/
def storeExisting (s : State) (p old : ItemPtr) (comm : Nread) (setStale : Bool)
    (copy : CopyInput) : StoreItemType × State :=
  let res := casResult s (s.heap p) (s.heap old) setStale
  match comm with
  | .add => (.notStored, doItemRemove (doItemUpdate s old) old)
  | .cas =>
    match res with
    | .match => storeOver s p old
    | .stale =>
      let oldIt := s.heap old
      storeOver (s.modify p fun it =>
        { it with
          exptime := oldIt.exptime, stale := true
          tokenSent := it.tokenSent || oldIt.tokenSent }) p old
    | .none | .badval => (.exists, doItemRemove s old)
  | .append | .prepend =>
    match res with
    | .none | .match => storeConcat s p old comm copy
    | .stale | .badval => (.exists, doItemRemove s old)
  | .replace | .set => storeOver s p old

/-- The branch of `do_store_item` for a key without one. -/
def storeAbsent (s : State) (p : ItemPtr) (comm : Nread) : StoreItemType × State :=
  match comm with
  | .add | .set => (.stored, doItemLink s p)
  | .cas => (.notFound, s)
  | .replace | .append | .prepend => (.notStored, s)

/-- `do_store_item`, which `store_item` calls under the item lock. -/
def doStoreItem (s : State) (p : ItemPtr) (comm : Nread) (setStale : Bool) (copy : CopyInput) :
    StoreItemType × State :=
  match doItemGet s (s.heap p).key false with
  | (some old, s) => storeExisting s p old comm setStale copy
  | (none, s) => storeAbsent s p comm

/-! ## What is linked -/

/-- Whether the command links the uploaded item `it`, seen from the state before. -/
def linksUpload (s : State) (it : Item) (comm : Nread) (setStale : Bool) : Bool :=
  match liveItem s it.key with
  | none => comm = .add ∨ comm = .set
  | some old =>
    match comm with
    | .set | .replace => true
    | .cas =>
      let res := casResult s it (s.heap old) setStale
      res = .match ∨ res = .stale
    | .add | .append | .prepend => false

/-- Whether there is memory for the concatenation of the two values. -/
def concatRoom (s : State) (it old : Item) (copy : CopyInput) : Bool :=
  let nbytes := it.nbytes + old.nbytes - 2
  itemSizeOk s.settings it.key.length old.flags nbytes ∧ copy.alloc.isSome ∧
    ¬(isLarge s.settings it.key.length old.flags nbytes ∧ copy.copyFails)

/-- Whether the command links a concatenation. -/
def concatenates (s : State) (it : Item) (comm : Nread) (setStale : Bool)
    (copy : CopyInput) : Bool :=
  match liveItem s it.key with
  | none => false
  | some old =>
    let res := casResult s it (s.heap old) setStale
    (comm = .append ∨ comm = .prepend) ∧ (res = .none ∨ res = .match) ∧
      concatRoom s it (s.heap old) copy

/-- A `set` always links what was uploaded. -/
theorem linksUpload_set (s : State) (it : Item) (setStale : Bool) :
    linksUpload s it .set setStale = true := by
  simp only [linksUpload]
  split <;> rfl

/-- A lookup that hits takes a reference and may move the item's time. -/
theorem doItemGet_live {s : State} {key : Key} {p : ItemPtr} (live : liveItem s key = some p)
    (bump : Bool) :
    ∃ s', doItemGet s key bump = (some p, s') ∧ s'.currentTime = s.currentTime ∧
      (s'.heap p).data = (s.heap p).data ∧ (s'.heap p).refcount = (s.heap p).refcount + 1 := by
  obtain ⟨here, alive⟩ := liveItem_eq_some.mp live
  rw [doItemGet, here]
  simp only [alive, Bool.false_eq_true, if_false]
  cases bump with
  | true | false => exact ⟨_, rfl, rfl, by simp [refcountIncr], by simp [refcountIncr]⟩

/-- A lookup that hits only takes a reference. -/
theorem doItemGet_of_live {s : State} {key : Key} {old : ItemPtr}
    (live : liveItem s key = some old) :
    doItemGet s key false = (some old, refcountIncr s old) := by
  obtain ⟨here, alive⟩ := liveItem_eq_some.mp live
  simp [doItemGet, here, alive]

/-- Taking a reference does not change the outcome of the CAS test. -/
theorem casResult_refcountIncr (s : State) (p old q : ItemPtr) (setStale : Bool) :
    casResult (refcountIncr s q) ((refcountIncr s q).heap p) ((refcountIncr s q).heap old)
      setStale = casResult s (s.heap p) (s.heap old) setStale := by
  have cas : ∀ r, itemGetCas (refcountIncr s q) ((refcountIncr s q).heap r) =
      itemGetCas s (s.heap r) := by
    intro r
    by_cases here : r = q
    · subst r
      simp [itemGetCas, refcountIncr]
    · simp [itemGetCas, refcountIncr, State.modify_heap_of_ne _ here]
  rw [casResult, cas p, cas old, casResult]

/-- Taking a reference does not change the room for a concatenation. -/
theorem concatRoom_refcountIncr (s : State) (p old : ItemPtr) (copy : CopyInput) :
    concatRoom (refcountIncr s old) ((refcountIncr s old).heap p)
      ((refcountIncr s old).heap old) copy = concatRoom s (s.heap p) (s.heap old) copy := by
  by_cases here : p = old
  · subst p
    rw [refcountIncr, State.modify_heap_self]
    rfl
  · rw [refcountIncr, State.modify_heap_self, State.modify_heap_of_ne _ here]
    rfl

/-- Without room nothing is linked. -/
theorem storeConcat_shrinks {s : State} {p old : ItemPtr} {comm : Nread} {copy : CopyInput}
    (full : concatRoom s (s.heap p) (s.heap old) copy = false) :
    (storeConcat s p old comm copy).1 ≠ .stored ∧
      Shrinks Item.core s (storeConcat s p old comm copy).2 := by
  have grown := Shrinks.doItemAlloc s (s.heap p).key (s.heap old).flags (s.heap old).exptime
    ((s.heap p).nbytes + (s.heap old).nbytes - 2) copy.alloc
  unfold storeConcat
  dsimp only
  rcases ran : doItemAlloc s (s.heap p).key (s.heap old).flags (s.heap old).exptime
      ((s.heap p).nbytes + (s.heap old).nbytes - 2) copy.alloc with ⟨found, s'⟩
  rw [ran] at grown
  cases found with
  | none => exact ⟨by simp, grown.trans (Shrinks.doItemRemove s' old)⟩
  | some new =>
    -- The memory was there, so it is the copy that fails.
    obtain ⟨ok, left, given, _, _, fresh⟩ := doItemAlloc_some ran
    have fails : copyData comm (s.heap old) (s.heap p) (s'.heap new) copy = none := by
      simp only [concatRoom, ok, given, decide_eq_false_iff_not] at full
      have copyFails : isLarge s.settings (s.heap p).key.length (s.heap old).flags
          ((s.heap p).nbytes + (s.heap old).nbytes - 2) = true ∧
          copy.copyFails = true := by
        simpa using full
      simp [copyData, fresh, newItem, copyFails]
    dsimp only
    rw [fails]
    exact ⟨by simp, (grown.trans (Shrinks.doItemRemove s' old)).trans
      (Shrinks.doItemRemove _ new)⟩

theorem doStoreItem_links {s : State} {p : ItemPtr} {comm : Nread} {setStale : Bool}
    {copy : CopyInput} (lt : p < s.next) (links : linksUpload s (s.heap p) comm setStale) :
    (doStoreItem s p comm setStale copy).1 = .stored ∧
      Links Item.core p s (doStoreItem s p comm setStale copy).2 := by
  unfold linksUpload at links
  have replaced : ∀ s' old, Shrinks Item.core s s' → (storeOver s' p old).1 = .stored ∧
      Links Item.core p s (storeOver s' p old).2 := by
    intro s' old shrinks
    refine ⟨rfl, .after shrinks lt ?_⟩
    exact (Links.doItemReplace s' old (Nat.lt_of_lt_of_le lt shrinks.next)).remove old
  have get := Shrinks.doItemGet s (s.heap p).key false
  cases live : liveItem s (s.heap p).key with
  | none =>
    rw [live] at links
    have missed : (doItemGet s (s.heap p).key false).1 = none := by rw [doItemGet_fst, live]
    simp only [doStoreItem]
    rcases ran : doItemGet s (s.heap p).key false with ⟨found, s'⟩
    rw [ran] at missed get
    cases missed
    have comm' : comm = .add ∨ comm = .set := by simpa using links
    have linked := Links.doItemLink s' (Nat.lt_of_lt_of_le lt get.next)
    rcases comm' with rfl | rfl
    · exact ⟨rfl, .after get lt linked⟩
    · exact ⟨rfl, .after get lt linked⟩
  | some old =>
    rw [live] at links
    rw [doItemGet_of_live live] at get
    simp only [doStoreItem]
    rw [doItemGet_of_live live]
    dsimp only [storeExisting]
    rw [casResult_refcountIncr]
    cases comm with
    | set | replace => exact replaced _ old get
    | cas =>
      have res : casResult s (s.heap p) (s.heap old) setStale = .match ∨
          casResult s (s.heap p) (s.heap old) setStale = .stale := by simpa using links
      rcases res with res | res
      · rw [res]
        exact replaced _ old get
      · rw [res]
        refine replaced _ old (get.trans ?_)
        exact Shrinks.modify _ p (fun _ => rfl) (fun _ => rfl) fun _ => rfl
    | add | append | prepend => cases links

/-- A command that links neither the upload nor a concatenation links nothing. -/
theorem doStoreItem_shrinks {s : State} {p : ItemPtr} {comm : Nread} {setStale : Bool}
    {copy : CopyInput} (not : linksUpload s (s.heap p) comm setStale = false)
    (plain : concatenates s (s.heap p) comm setStale copy = false) :
    (doStoreItem s p comm setStale copy).1 ≠ .stored ∧
      Shrinks Item.core s (doStoreItem s p comm setStale copy).2 := by
  unfold linksUpload at not
  unfold concatenates at plain
  have get := Shrinks.doItemGet s (s.heap p).key false
  cases live : liveItem s (s.heap p).key with
  | none =>
    rw [live] at not
    have missed : (doItemGet s (s.heap p).key false).1 = none := by rw [doItemGet_fst, live]
    simp only [doStoreItem]
    rcases ran : doItemGet s (s.heap p).key false with ⟨found, s'⟩
    rw [ran] at missed get
    cases missed
    cases comm <;> first | exact ⟨by simp [storeAbsent], get⟩ | simp at not
  | some old =>
    rw [live] at not plain
    rw [doItemGet_of_live live] at get
    simp only [doStoreItem]
    rw [doItemGet_of_live live]
    dsimp only [storeExisting]
    rw [casResult_refcountIncr]
    have release := get.trans (Shrinks.doItemRemove _ old)
    have noRoom : concatRoom s (s.heap p) (s.heap old) copy = false →
        (storeConcat (refcountIncr s old) p old comm copy).1 ≠ .stored ∧
          Shrinks Item.core s (storeConcat (refcountIncr s old) p old comm copy).2 := by
      intro full
      rw [← concatRoom_refcountIncr] at full
      obtain ⟨not, shrinks⟩ := @storeConcat_shrinks _ p old comm _ full
      exact ⟨not, get.trans shrinks⟩
    cases comm with
    | set | replace => cases not
    | add =>
      refine ⟨by simp, (get.trans (Shrinks.doItemUpdate _ old)).trans ?_⟩
      exact Shrinks.doItemRemove _ old
    | cas =>
      cases res : casResult s (s.heap p) (s.heap old) setStale <;> simp [res] at not
      · exact ⟨by simp, release⟩
      · exact ⟨by simp, release⟩
    | append | prepend =>
      cases res : casResult s (s.heap p) (s.heap old) setStale
      case badval => exact ⟨by simp, release⟩
      case stale => exact ⟨by simp, release⟩
      all_goals exact noRoom (by simpa [res] using plain)

end Kvsev.Server
