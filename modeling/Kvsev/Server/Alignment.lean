import Kvsev.Server.Operations

/-!
# Leaves and items in step

A storage command takes the index of the leaf it appends from the counter of
items, not from the tree. The two agree as long as each operation that counts an
item appends one leaf, for the item it links, and conversely. `Aligned` is that
invariant, and `StaysAligned` says of an operation, seen from the state before it,
that it keeps it. Under it a `get` never raises a false alarm.
-/

namespace Kvsev.Server

open Merkle Memory Transition

/-- What the tree check looks at in an item. -/
def authView (it : Item) : Key × Vector UInt8 32 × Nat := (it.key, it.mac, it.mtIndex)

theorem authView_coreView : CoreView authView := by
  intro it it' same
  have key := congrArg Core.key same
  have mac := congrArg Core.mac same
  have mtIndex := congrArg Core.mtIndex same
  exact Prod.ext key (Prod.ext mac mtIndex)

/-- The leaf that an item belongs to. -/
def leafOf (it : Item) : Digest := padTag it.mac.toList 16

theorem leafOf_congr {it it' : Item} (same : authView it = authView it') :
    it.mtIndex = it'.mtIndex ∧ leafOf it = leafOf it' := by
  have mac : it.mac = it'.mac := congrArg (fun v => v.2.1) same
  exact ⟨congrArg (fun v => v.2.2) same, by rw [leafOf, mac, leafOf]⟩

/-- The tree holds `xs`, as many items were counted, and the index of each item
in the table is that of its own leaf. -/
structure Aligned (s : State) (xs : List Digest) : Prop where
  tree : s.merkle.Represents xs
  counted : s.totalItems = xs.length
  table : WellLinked s
  leaf : ∀ key p, s.assoc key = some p → xs[(s.heap p).mtIndex]? = some (leafOf (s.heap p))

theorem macBytes_readable (it : Item) : 16 ≤ it.mac.toList.length := by simp

namespace Aligned

variable {s s' : State} {xs : List Digest}

theorem init (settings : Settings) : Aligned (State.init settings) [] where
  tree := mtCreate_represents
  counted := rfl
  table := WellLinked.init settings
  leaf := fun _ _ found => nomatch found

section

variable (aligned : Aligned s xs)

include aligned

/-- Operations that link nothing and write no code keep the items in step. -/
theorem shrinks (shrinks : Shrinks authView s s') : Aligned s' xs := by
  refine ⟨shrinks.merkle ▸ aligned.tree, shrinks.totalItems ▸ aligned.counted,
    shrinks.table aligned.table, fun key p found => ?_⟩
  have found := shrinks.assoc key p found
  obtain ⟨mtIndex, leaf⟩ := leafOf_congr (shrinks.view p (aligned.table.old key p found))
  rw [mtIndex, leaf]
  exact aligned.leaf key p found

theorem shrinks_core (shrinks : Shrinks Item.core s s') :
    Aligned s' xs :=
  aligned.shrinks (shrinks.of_core authView_coreView)

variable {p : ItemPtr}

/-- The tree accepts every item of the table. -/
theorem verify {key : Key} (found : s.assoc key = some p) : verifyItem s p = .ok .success :=
  aligned.tree.verify (by decide) (macBytes_readable _) (aligned.leaf key p found)

/-- After one more item is linked, the counter points at the next free leaf. -/
theorem total_links (links : Links Item.core p s s')
    (room : xs.length < 2 ^ 26) : s'.totalItems = xs.length + 1 := by
  rw [links.totalItems, aligned.counted]
  exact u64_of_lt (by omega)

theorem index_links (links : Links Item.core p s s')
    (room : xs.length < 2 ^ 26) : u32Pred (u32 s'.totalItems) = xs.length := by
  rw [aligned.total_links links room, u32_of_lt (by omega)]
  exact u32Pred_succ (by omega)

/-- Linking the upload and appending its leaf keeps the items in step. -/
theorem append {flat : Nat → UInt8} {mt : Mt}
    (links : Links Item.core p s s') (room : xs.length < 2 ^ 26)
    (tree : mt.Represents (xs ++ [padTag (itemMac (s'.heap p) flat).toList 16])) :
    Aligned (authenticated s' p flat mt)
      (xs ++ [padTag (itemMac (s'.heap p) flat).toList 16]) := by
  have total := aligned.total_links links room
  have index := aligned.index_links links room
  refine ⟨tree, by simp [authenticated, total], (links.table aligned.table).authenticated p flat mt,
    fun key q found => ?_⟩
  by_cases here : q = p
  · subst q
    simp [stamped, index, leafOf]
  -- An entry other than the upload was there before, with the same code.
  have other : key ≠ (s.heap p).key := by
    rintro rfl
    exact here (Option.some.inj (found.symm.trans links.here))
  have found := links.assoc key q other found
  have same := links.view q (aligned.table.old key q found)
  obtain ⟨mtIndex, sameLeaf⟩ := leafOf_congr (authView_coreView _ _ same)
  have leaf := aligned.leaf key q found
  rw [authenticated_heap_of_ne flat mt here, mtIndex, sameLeaf]
  rw [List.getElem?_append_left (List.getElem?_eq_some_iff.mp leaf).1]
  exact leaf

theorem complete {comm : Nread} {req : StoreRequest} (lt : p < s.next)
    (ends : endsLine (s.heap p).data) (links : linksUpload s (s.heap p) comm req.setStale)
    (room : xs.length < 2 ^ 26) (allocs : ∀ l, req.treeAllocs l ≠ none) :
    ∃ s' x, completeNreadAscii s p comm req = .ok ("STORED", s') ∧ Aligned s' (xs ++ [x]) ∧
      s'.assoc (s.heap p).key = some p ∧ (s'.heap p).mtIndex = xs.length := by
  obtain ⟨stored, links⟩ := @doStoreItem_links s p comm req.setStale req.copy lt links
  have readable : 16 ≤
      (itemMac ((doStoreItem s p comm req.setStale req.copy).2.heap p) req.flat).toList.length := by
    simp
  obtain ⟨mt, added, tree⟩ := mtAdd_success (links.merkle ▸ aligned.tree) room (by decide)
    readable allocs
  have complete := completeNreadAscii_eq ends added
  rw [stored] at complete
  refine ⟨_, _, complete, (aligned.append links room tree).shrinks_core (.doItemRemove _ p),
    links.here, ?_⟩
  simp [doItemRemove, stamped, aligned.index_links links room]

end

end Aligned

/-! ## Operations that keep the items in step -/

/-- A storage command that is refused, or that links the uploaded item and for
which the tree has room. -/
def UpdateStaysAligned (s : State) (comm : Nread) (req : StoreRequest) : Prop :=
  match uploadItem s req req.data with
  | (none, _) => True
  | (some p, s') =>
    endsLine req.data = false ∨
      (linksUpload s' (s'.heap p) comm req.setStale = true ∧ s.merkle.elems < 2 ^ 26 ∧
        ∀ l, req.treeAllocs l ≠ none)

/-- Operations that count an item exactly when they append its leaf. -/
def StaysAligned (s : State) : Operation → Prop
  | .update comm req => UpdateStaysAligned s comm req
  | .binUpdate comm req => BinUpdateLinksNothing s comm req
  | .arithmetic req => deltaReplaces s { req with cas := 0 } = false
  | .binArithmetic req => deltaReplaces s req = false
  | .slabMove p input => MoveCopiesNothing s p input
  | .statsReset => s.totalItems = 0
  | .delete _ | .get _ | .flushAll _ | .tick | .evict _ | .responseSent => True

namespace Aligned

variable {s : State} {xs : List Digest}

section

variable (aligned : Aligned s xs)

include aligned

theorem update {comm : Nread} {req : StoreRequest} (stays : UpdateStaysAligned s comm req) :
    ∃ reply s' xs', processUpdateCommand s comm req = .ok (reply, s') ∧ Aligned s' xs' := by
  unfold UpdateStaysAligned at stays
  simp only [processUpdateCommand]
  split
  · exact ⟨_, s, xs, rfl, aligned⟩
  have grown := Shrinks.uploadItem s req req.data
  rcases ran : uploadItem s req req.data with ⟨found, s₁⟩
  rw [ran] at stays grown
  have aligned₁ := aligned.shrinks_core grown
  cases found with
  | none => exact ⟨_, _, xs, rfl, aligned₁.shrinks_core (.of_sheds (.dropOnFailedAlloc s₁ _ _))⟩
  | some p =>
    obtain ⟨_, _, _, data, _, _⟩ := uploadItem_some ran
    dsimp only at stays ⊢
    rcases stays with bad | ⟨links, room, allocs⟩
    · simp only [completeNreadAscii]
      rw [data, if_neg (by simp [bad])]
      exact ⟨_, _, xs, rfl, aligned₁.shrinks_core (.doItemRemove s₁ p)⟩
    by_cases ends : endsLine req.data = true
    · have lt := uploadItem_lt ran
      have leaves : xs.length < 2 ^ 26 := aligned.tree.elems ▸ room
      obtain ⟨s₂, x, complete, aligned₂, _⟩ :=
        aligned₁.complete lt (data ▸ ends) links leaves allocs
      exact ⟨_, s₂, _, complete, aligned₂⟩
    · simp only [completeNreadAscii]
      rw [data, if_neg ends]
      exact ⟨_, _, xs, rfl, aligned₁.shrinks_core (.doItemRemove s₁ p)⟩

theorem addDelta {req : DeltaRequest}
    (plain : deltaReplaces s req = false) : Aligned (doAddDelta s req).2 xs :=
  aligned.shrinks (doAddDelta_shrinks plain authView_coreView fun _ _ _ _ => rfl)

/-- The tree accepts what a lookup of the text protocol returns. -/
theorem verify_found {s' : State} {key : Key} {touch : Option Nat}
    {bump : Bool} {p : ItemPtr} (found : limitedGet s key touch bump = (some p, s')) :
    verifyItem s' p = .ok .success := by
  have shrinks := Shrinks.limitedGet s key touch bump
  rw [found] at shrinks
  have here := limitedGet_some found
  have same := shrinks.view p (aligned.table.old key p here)
  have mac : (s'.heap p).mac = (s.heap p).mac := congrArg Core.mac same
  have mtIndex : (s'.heap p).mtIndex = (s.heap p).mtIndex := congrArg Core.mtIndex same
  rw [verifyItem, shrinks.merkle, mac, mtIndex]
  exact aligned.verify here

theorem getKey (req : GetRequest) (key : Key) (done : GetProgress) :
    ∃ done' s', processGetKey s req key done = .ok (done', s') ∧ Aligned s' xs := by
  simp only [processGetKey]
  have shrinks := Shrinks.limitedGet s key req.touch req.bump
  rcases ran : limitedGet s key req.touch req.bump with ⟨found, s'⟩
  rw [ran] at shrinks
  have aligned' := aligned.shrinks_core shrinks
  cases found with
  | none => exact ⟨done, s', rfl, aligned'⟩
  | some p =>
    have verified := aligned.verify_found ran
    simp only [verified, Exec.ok_bind]
    exact ⟨_, s', rfl, aligned'⟩

theorem getKeys (req : GetRequest) (keys : List Key) (done : GetProgress) :
    ∃ complete done' s', processGetKeys req s keys done = .ok (complete, done', s') ∧
      Aligned s' xs := by
  induction keys generalizing s done with
  | nil => exact ⟨true, done, s, rfl, aligned⟩
  | cons key keys ih =>
    rw [processGetKeys]
    split
    · exact ⟨false, done, s, rfl, aligned⟩
    · obtain ⟨done₁, s₁, ran, aligned₁⟩ := aligned.getKey req key done
      rw [ran, Exec.ok_bind]
      exact ih aligned₁ done₁

theorem get (req : GetRequest) :
    ∃ reply s', processGetCommand s req = .ok (reply, s') ∧ Aligned s' xs := by
  obtain ⟨complete, done, s', ran, _⟩ := aligned.getKeys req req.keys ⟨[], [], []⟩
  have returns : ∃ result, processGetCommand s req = .ok result := by
    simp only [processGetCommand]
    rw [ran, Exec.ok_bind]
    cases complete with
    | true | false => exact ⟨_, rfl⟩
  obtain ⟨⟨reply, s''⟩, ran⟩ := returns
  exact ⟨reply, s'', ran, aligned.shrinks_core (.processGetCommand ran)⟩

/-- Each permitted operation returns and keeps the items in step. -/
theorem step {op : Operation} (stays : StaysAligned s op) :
    ∃ s', step s op = .ok s' ∧ ∃ xs', Aligned s' xs' := by
  cases op with
  | update comm req =>
    obtain ⟨reply, s', xs', ran, aligned'⟩ := aligned.update stays
    exact ⟨s', by simp [Server.step, ran], xs', aligned'⟩
  | arithmetic req =>
    refine ⟨_, rfl, xs, ?_⟩
    rw [processArithmeticCommand_state]
    split
    · exact aligned
    · exact aligned.addDelta stays
  | delete key => exact ⟨_, rfl, xs, aligned.shrinks_core (.of_sheds (.processDeleteCommand s key))⟩
  | get req =>
    obtain ⟨reply, s', ran, aligned'⟩ := aligned.get req
    exact ⟨s', by simp [Server.step, ran], xs, aligned'⟩
  | binUpdate comm req => exact ⟨_, rfl, xs, aligned.shrinks_core (.processBinUpdate stays)⟩
  | binArithmetic req => exact ⟨_, rfl, xs, aligned.addDelta stays⟩
  | slabMove p input => exact ⟨_, rfl, xs, aligned.shrinks_core (.slabRebalanceMove stays)⟩
  | statsReset =>
    have zero : s.totalItems = 0 := stays
    exact ⟨_, rfl, xs, { aligned with
      counted := zero.symm.trans aligned.counted, table := { aligned.table with } }⟩
  | flushAll newOldest => exact ⟨_, rfl, xs, aligned.shrinks_core (.flushAll s newOldest)⟩
  | tick =>
    exact ⟨_, rfl, xs, { aligned with table := { aligned.table with } }⟩
  | evict p => exact ⟨_, rfl, xs, aligned.shrinks_core (.doItemUnlink s p)⟩
  | responseSent => exact ⟨_, rfl, xs, aligned.shrinks_core (.responseSent s)⟩

end

end Aligned

/-! ## False alarms -/

/-- The tree accepts every item that a text `get` can find now. -/
def NoFalseAlarm (s : State) : Prop :=
  ∀ key touch bump p s', limitedGet s key touch bump = (some p, s') →
    verifyItem s' p = .ok .success

/-- From an empty server, operations that keep the items in step never lead to a
false alarm. -/
theorem always_noFalseAlarm (settings : Settings) (ops : List Operation)
    (stays : Meets step StaysAligned (State.init settings) ops) :
    Always step NoFalseAlarm (State.init settings) ops := by
  have invariant : Always step (fun s => ∃ xs, Aligned s xs) (State.init settings) ops := by
    refine always_of_invariant ?_ ⟨[], Aligned.init settings⟩ stays
    rintro s op ⟨xs, aligned⟩ permitted
    exact aligned.step permitted
  refine invariant.mono ?_
  rintro s ⟨xs, aligned⟩ key touch bump p s' found
  exact aligned.verify_found found

theorem always_noFalseAlarm_sample :
    Always step NoFalseAlarm (State.init defaultSettings)
      [.update .set (plainRequest [107] [49, 13, 10]), .get ⟨[[107]], false, none, true⟩,
        .delete [107]] := by
  refine always_noFalseAlarm _ _ ⟨?_, fun _ _ =>
    ⟨trivial, fun _ _ => ⟨trivial, fun _ _ => trivial⟩⟩⟩
  exact .inr ⟨rfl, by decide, fun _ => nofun⟩

/-- The binary protocol links items without a leaf, and the next text `get` of
such an item is told that the tree does not know it. -/
theorem binarySet_falseAlarm :
    ∃ s, run step (State.init defaultSettings) [.binUpdate .set (plainRequest [107] [118])] =
      .ok s ∧ ¬NoFalseAlarm s := by
  refine ⟨_, rfl, fun safe => ?_⟩
  have verified := safe [107] none false 0 _ rfl
  have alarm : verifyItem (limitedGet (processBinUpdate (State.init defaultSettings) .set
      (plainRequest [107] [118])).2 [107] none false).2 0 = .ok .illegalParam := by decide +kernel
  exact absurd (alarm.symm.trans verified) (by decide)

end Kvsev.Server
