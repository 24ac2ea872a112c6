import Kvsev.Server.Operations

/-!
# Codes and values

The code of an item is computed once, from the flat bytes behind the header of
the item that was uploaded. It is the code of the item's value as long as nothing
links another item, spreads the value over chunks or changes it later.
`KeepsMac` says this of an operation, seen from the state before it.
-/

namespace Kvsev.Server

open Merkle Cmac Memory Transition

/-- The first half of the `mac` field is the code of the current value. -/
def MacOk (it : Item) : Prop := it.mac.toList.take 16 = (cmacOf cmacKey it.data).toList

instance (it : Item) : Decidable (MacOk it) :=
  inferInstanceAs (Decidable (it.mac.toList.take 16 = (cmacOf cmacKey it.data).toList))

/-- Every item in the table carries the code of its value. -/
def MacValid (s : State) : Prop := ∀ key p, s.assoc key = some p → MacOk (s.heap p)

/-- What the code and the value of an item are. -/
def macView (it : Item) : List UInt8 × Vector UInt8 32 := (it.data, it.mac)

theorem macView_coreView : CoreView macView := by
  intro it it' same
  exact Prod.ext (congrArg Core.data same) (congrArg Core.mac same)

theorem MacOk.congr {it it' : Item} (same : macView it' = macView it) (ok : MacOk it) :
    MacOk it' := by
  have data : it'.data = it.data := congrArg Prod.fst same
  have mac : it'.mac = it.mac := congrArg Prod.snd same
  rw [MacOk, data, mac]
  exact ok

theorem writeMac_take (mac : Vector UInt8 32) (code : AesBlock) :
    (writeMac mac code).toList.take 16 = code.toList := by
  apply List.ext_getElem
  · simp
  · intro i inTaken inCode
    have small : i < 16 := by simpa using inCode
    simp [writeMac, small]

/-- The item that `complete_nread_ascii` stamps carries the code of its value,
if the value lies behind its header. -/
theorem MacOk.stamped {s : State} {it : Item} {flat : Nat → UInt8} (whole : it.chunked = false) :
    MacOk (stamped s it flat) := by
  simp [MacOk, Server.stamped, itemMac, writeMac_take, macInput, whole]

/-- The invariant of a run. -/
structure MacInvariant (s : State) : Prop where
  table : WellLinked s
  valid : MacValid s

namespace MacInvariant

variable {s s' : State}

theorem shrinks (inv : MacInvariant s) (shrinks : Shrinks macView s s') : MacInvariant s' := by
  refine ⟨shrinks.table inv.table, fun key p found => ?_⟩
  have found := shrinks.assoc key p found
  exact (inv.valid key p found).congr (shrinks.view p (inv.table.old key p found))

theorem shrinks_core (inv : MacInvariant s) (shrinks : Shrinks Item.core s s') :
    MacInvariant s' :=
  inv.shrinks (shrinks.of_core macView_coreView)

theorem stamp_unlinked (inv : MacInvariant s) {p : ItemPtr} {flat : Nat → UInt8} {mt : Mt}
    (out : ∀ key, s.assoc key ≠ some p) : MacInvariant (authenticated s p flat mt) := by
  refine ⟨inv.table.authenticated p flat mt, fun key q found => ?_⟩
  have other : q ≠ p := by
    rintro rfl
    exact out key found
  rw [authenticated_heap_of_ne flat mt other]
  exact inv.valid key q found

theorem stamp_linked (inv : MacInvariant s) {p : ItemPtr} {flat : Nat → UInt8} {mt : Mt}
    (lt : p < s.next) (links : Links Item.core p s s') (whole : (s.heap p).chunked = false) :
    MacInvariant (authenticated s' p flat mt) := by
  refine ⟨(links.table inv.table).authenticated p flat mt, fun key q found => ?_⟩
  by_cases here : q = p
  · subst q
    have same : (s'.heap p).chunked = (s.heap p).chunked := congrArg Core.chunked (links.view p lt)
    rw [authenticated_heap_self]
    exact MacOk.stamped (same.trans whole)
  have other : key ≠ (s.heap p).key := by
    rintro rfl
    exact here (Option.some.inj (found.symm.trans links.here))
  have found := links.assoc key q other found
  rw [authenticated_heap_of_ne flat mt here]
  exact (inv.valid key q found).congr
    (macView_coreView _ _ (links.view q (inv.table.old key q found)))

end MacInvariant

/-! ## Operations that keep the codes valid -/

/-- A storage command that links no concatenation and no chain of chunks. -/
def UpdateKeepsMac (s : State) (comm : Nread) (req : StoreRequest) : Prop :=
  match uploadItem s req req.data with
  | (none, _) => True
  | (some p, s') =>
    endsLine req.data = false ∨
      (concatenates s' (s'.heap p) comm req.setStale req.copy = false ∧
        (linksUpload s' (s'.heap p) comm req.setStale = true →
          isLarge s.settings req.key.length req.flags req.data.length = false))

/-- An increment or decrement that links no new item and leaves the bytes of the
value as they are. -/
def DeltaKeepsMac (s : State) (req : DeltaRequest) : Prop :=
  deltaReplaces s req = false ∧
    ∀ p text, deltaTarget s req = some (p, text) → deltaFits s p text = true →
      inPlaceData (s.heap p) text = (s.heap p).data

/-- Operations that leave every item in the table with the code of its value. -/
def KeepsMac (s : State) : Operation → Prop
  | .update comm req => UpdateKeepsMac s comm req
  | .arithmetic req => DeltaKeepsMac s { req with cas := 0 }
  | .binUpdate comm req => BinUpdateLinksNothing s comm req
  | .binArithmetic req => DeltaKeepsMac s req
  | .slabMove p input => MoveCopiesNothing s p input
  | .delete _ | .get _ | .statsReset | .flushAll _ | .tick | .evict _ | .responseSent => True

namespace MacInvariant

variable {s s' : State}

theorem addDelta (inv : MacInvariant s) {req : DeltaRequest} (keeps : DeltaKeepsMac s req) :
    MacInvariant (doAddDelta s req).2 := by
  obtain ⟨plain, unchanged⟩ := keeps
  refine inv.shrinks (doAddDelta_shrinks plain macView_coreView fun p text target fits => ?_)
  exact Prod.ext (unchanged p text target fits) rfl

theorem complete (inv : MacInvariant s) {p : ItemPtr} {comm : Nread} {req : StoreRequest}
    {reply : String} (lt : p < s.next) (out : ∀ key, s.assoc key ≠ some p)
    (keeps : endsLine (s.heap p).data = false ∨
      (concatenates s (s.heap p) comm req.setStale req.copy = false ∧
        (linksUpload s (s.heap p) comm req.setStale = true → (s.heap p).chunked = false)))
    (ran : completeNreadAscii s p comm req = .ok (reply, s')) : MacInvariant s' := by
  by_cases ends : endsLine (s.heap p).data = true
  · obtain ⟨plain, whole⟩ := keeps.resolve_left (by simp [ends])
    obtain ⟨mt, rfl⟩ := completeNreadAscii_ok ends ran
    refine MacInvariant.shrinks_core ?_ (.doItemRemove _ p)
    cases links : linksUpload s (s.heap p) comm req.setStale with
    | true => exact inv.stamp_linked lt (doStoreItem_links lt links).2 (whole links)
    | false =>
      have shrinks := (doStoreItem_shrinks links plain).2
      refine (inv.shrinks_core shrinks).stamp_unlinked fun key found => ?_
      exact out key (shrinks.assoc key p found)
  · unfold completeNreadAscii at ran
    rw [if_neg ends] at ran
    cases ran
    exact inv.shrinks_core (.doItemRemove s p)

theorem update (inv : MacInvariant s) {comm : Nread} {req : StoreRequest} {reply : String}
    (keeps : UpdateKeepsMac s comm req)
    (ran : processUpdateCommand s comm req = .ok (reply, s')) : MacInvariant s' := by
  unfold UpdateKeepsMac at keeps
  unfold processUpdateCommand at ran
  split at ran
  · cases ran
    exact inv
  have grown := Shrinks.uploadItem s req req.data
  rcases uploaded : uploadItem s req req.data with ⟨found, s₁⟩
  rw [uploaded] at ran keeps grown
  have inv₁ := inv.shrinks_core grown
  cases found with
  | none =>
    cases ran
    exact inv₁.shrinks_core (.of_sheds (.dropOnFailedAlloc s₁ req.key comm))
  | some p =>
    obtain ⟨fresh, _, _, data, chunked, _⟩ := uploadItem_some uploaded
    have lt := uploadItem_lt uploaded
    have out : ∀ key, s₁.assoc key ≠ some p := by
      intro key found
      have old := inv.table.old key p (grown.assoc key p found)
      exact Nat.lt_irrefl _ (fresh ▸ old)
    dsimp only at keeps ran
    rw [← chunked, ← data] at keeps
    exact inv₁.complete lt out keeps ran

/-- Each permitted operation that returns keeps the codes valid. -/
theorem step (inv : MacInvariant s) {op : Operation} (keeps : KeepsMac s op)
    (ran : step s op = .ok s') : MacInvariant s' := by
  cases op with
  | update comm req =>
    obtain ⟨⟨reply, s₁⟩, ran, same⟩ := Exec.bind_eq_ok.mp ran
    cases same
    exact inv.update keeps ran
  | arithmetic req =>
    cases ran
    rw [processArithmeticCommand_state]
    split
    · exact inv
    · exact inv.addDelta keeps
  | delete key =>
    cases ran
    exact inv.shrinks_core (.of_sheds (.processDeleteCommand s key))
  | get req =>
    obtain ⟨⟨reply, s₁⟩, ran, same⟩ := Exec.bind_eq_ok.mp ran
    cases same
    exact inv.shrinks_core (.processGetCommand ran)
  | binUpdate comm req =>
    cases ran
    exact inv.shrinks_core (.processBinUpdate keeps)
  | binArithmetic req =>
    cases ran
    exact inv.addDelta keeps
  | slabMove p input =>
    cases ran
    exact inv.shrinks_core (.slabRebalanceMove keeps)
  | statsReset =>
    cases ran
    exact { inv with table := { inv.table with } }
  | flushAll newOldest =>
    cases ran
    exact inv.shrinks_core (.flushAll s newOldest)
  | tick =>
    cases ran
    exact { inv with table := { inv.table with } }
  | evict p =>
    cases ran
    exact inv.shrinks_core (.doItemUnlink s p)
  | responseSent =>
    cases ran
    exact inv.shrinks_core (.responseSent s)

end MacInvariant

/-- From an empty server, operations that keep the codes valid leave every item
of the table with the code of its value, after each of them. -/
theorem macValid_throughout (settings : Settings) (ops : List Operation)
    (keeps : Meets step KeepsMac (State.init settings) ops) :
    Throughout step MacValid (State.init settings) ops := by
  have invariant : Throughout step MacInvariant (State.init settings) ops := by
    refine throughout_of_invariant ?_ ⟨WellLinked.init settings, nofun⟩ keeps
    intro s op s' inv keep ran
    exact inv.step keep ran
  exact invariant.mono fun s inv => inv.valid

theorem macValid_throughout_sample :
    Throughout step MacValid (State.init defaultSettings)
      [.update .set (plainRequest [107] [53, 13, 10]), .delete [107]] := by
  refine macValid_throughout _ _ ⟨?_, fun _ _ => ⟨trivial, fun _ _ => trivial⟩⟩
  exact .inr ⟨rfl, fun _ => by decide⟩

/-- `incr` writes the new number over the old one and leaves the code alone. -/
theorem incremented_invalid :
    ∃ s, run step (State.init defaultSettings)
      [.update .set (plainRequest [107] [53, 13, 10]),
        .arithmetic ⟨[107], true, 1, 0, false, none⟩] = .ok s ∧ ¬MacValid s := by
  have facts : (do
      let s ← run step (State.init defaultSettings)
        [.update .set (plainRequest [107] [53, 13, 10]),
          .arithmetic ⟨[107], true, 1, 0, false, none⟩]
      return (s.assoc [107], decide (MacOk (s.heap 0)))) = (.ok (some 0, false) : Exec _) := by
    decide +kernel
  obtain ⟨s, ran, result⟩ := Exec.bind_eq_ok.mp facts
  simp only [Exec.pure_eq_ok, Except.ok.injEq, Prod.mk.injEq, decide_eq_false_iff_not] at result
  obtain ⟨found, wrong⟩ := result
  exact ⟨s, ran, fun valid => wrong (valid [107] 0 found)⟩

end Kvsev.Server
