import Kvsev.Server.Item
import Kvsev.Transition.Run

/-!
# The histogram of item sizes

The tracker counts linked items that got their unique after it was started. To know which
ones these are, it compares the unique of an item with a threshold, when the item is linked
and when it is unlinked. `incr` takes an item out and in again around a new unique; marking
an item as stale gives it a new unique and does not.

Of an item only its unique and its size matter here. An item without `ITEM_CAS` has the
unique 0.
-/

namespace Kvsev.Server.Sizes

open Transition

/-- A linked item. -/
structure Tracked where
  ptr : Nat
  cas : Nat
  /-- `ITEM_ntotal` -/
  ntotal : Nat
deriving DecidableEq

structure State where
  useCas : Bool
  casId : Nat
  linked : List Tracked
  statsSizesCasMin : Nat := 0
  statsSizesBuckets : Nat := 0
  /-- A bucket is an `unsigned int`, and there are fewer than 2³² items of a size. -/
  statsSizesHist : Nat → Int := fun _ => 0

/-- What `settings.use_cas ? get_cas_id() : 0` is next. -/
def State.nextCas (s : State) : Nat := if s.useCas then u64 (s.casId + 1) else 0

/-- `get_cas_id` has been called. -/
def State.issue (s : State) : State :=
  { s with casId := if s.useCas then u64 (s.casId + 1) else s.casId }

/-- `item_stats_sizes_init` -/
def itemStatsSizesInit (itemSizeMax : Nat) (s : State) : State :=
  { s.issue with
    statsSizesBuckets := itemSizeMax / 32 + 1
    statsSizesHist := fun _ => 0
    statsSizesCasMin := s.nextCas }

def bucketOf (ntotal : Nat) : Nat := if ntotal % 32 ≠ 0 then ntotal / 32 + 1 else ntotal / 32

/-- What `item_stats_sizes_add` and `item_stats_sizes_remove` have in common. -/
def track (change : Int) (s : State) (it : Tracked) : State :=
  if s.statsSizesCasMin ≤ it.cas ∧ bucketOf it.ntotal < s.statsSizesBuckets then
    { s with
      statsSizesHist := Function.update s.statsSizesHist (bucketOf it.ntotal)
        (s.statsSizesHist (bucketOf it.ntotal) + change) }
  else s

def itemStatsSizesAdd : State → Tracked → State := track 1

def itemStatsSizesRemove : State → Tracked → State := track (-1)

/-- `do_item_link` -/
def doItemLink (s : State) (ptr ntotal : Nat) : State :=
  let it : Tracked := ⟨ptr, s.nextCas, ntotal⟩
  itemStatsSizesAdd { s.issue with linked := it :: s.linked } it

/-- `do_item_unlink` and `do_item_unlink_nolock` -/
def doItemUnlink (s : State) (it : Tracked) : State :=
  if it ∈ s.linked then itemStatsSizesRemove { s with linked := s.linked.erase it } it else s

/-- `do_item_replace` -/
def doItemReplace (s : State) (it : Tracked) (ptr ntotal : Nat) : State :=
  doItemLink (doItemUnlink s it) ptr ntotal

/-- `ITEM_set_cas` of a linked item with a new unique. -/
def restamp (s : State) (it : Tracked) : State :=
  { s.issue with linked := { it with cas := s.nextCas } :: s.linked.erase it }

/-- What happens to the items. -/
inductive Op where
  /-- An item is stored, maybe in the place of another one. -/
  | store (old : Option Tracked) (ptr ntotal : Nat)
  /-- Deleting, eviction, expiry. -/
  | unlink (it : Tracked)
  /-- `do_add_delta` for a number that fits into the item. -/
  | deltaInPlace (it : Tracked)
  | deltaReplace (it : Tracked) (ptr ntotal : Nat)
  /-- `process_mdelete_command` with `of.set_stale`. -/
  | invalidate (it : Tracked)
  /-- The slab mover copies an item. -/
  | relocate (it : Tracked) (ptr : Nat)

def step (s : State) : Op → Except Empty State
  | .store none ptr ntotal => .ok (doItemLink s ptr ntotal)
  | .store (some old) ptr ntotal => .ok (doItemReplace s old ptr ntotal)
  | .unlink it => .ok (doItemUnlink s it)
  | .deltaInPlace it =>
    if it ∈ s.linked then
      let stamped := restamp (itemStatsSizesRemove s it) it
      .ok (itemStatsSizesAdd stamped { it with cas := s.nextCas })
    else .ok s
  -- the old item, which also gets a new unique, is no longer linked then
  | .deltaReplace it ptr ntotal => .ok (doItemReplace s it ptr ntotal)
  | .invalidate it => if it ∈ s.linked then .ok (restamp s it) else .ok s
  | .relocate it ptr => .ok (doItemReplace s it ptr it.ntotal)

/-- How many of the items count for a bucket. -/
def count (casMin b : Nat) (items : List Tracked) : Nat :=
  items.countP fun it => casMin ≤ it.cas ∧ bucketOf it.ntotal = b

/-- The histogram has the numbers of linked items. -/
def Exact (s : State) : Prop :=
  ∀ b < s.statsSizesBuckets, s.statsSizesHist b = count s.statsSizesCasMin b s.linked

/-- Marking an item as stale does not bring it under the tracker: it is there already, or the
histogram has no bucket for it. -/
def Unmoved (s : State) (op : Op) : Prop :=
  ∀ it, op = .invalidate it → it ∈ s.linked → bucketOf it.ntotal < s.statsSizesBuckets →
    (s.statsSizesCasMin ≤ it.cas ↔ s.statsSizesCasMin ≤ s.nextCas)

/-- What one item adds to the number. -/
def weight (casMin b : Nat) (it : Tracked) : Nat := count casMin b [it]

/-- A step that counts what it links and unlinks. -/
def Keeps (s s' : State) : Prop :=
  s'.statsSizesBuckets = s.statsSizesBuckets ∧ ∀ b < s.statsSizesBuckets,
    s'.statsSizesHist b + count s.statsSizesCasMin b s.linked =
      s.statsSizesHist b + count s'.statsSizesCasMin b s'.linked

variable {s s' s'' : State} {it : Tracked} {casMin b : Nat} {items : List Tracked}

theorem Keeps.trans (first : Keeps s s') (second : Keeps s' s'') : Keeps s s'' := by
  refine ⟨second.1.trans first.1, fun b inside => ?_⟩
  have before := first.2 b inside
  have after := second.2 b (by rwa [first.1])
  omega

theorem Keeps.exact (keeps : Keeps s s') (exact : Exact s) : Exact s' := by
  intro b inside
  rw [keeps.1] at inside
  have same := keeps.2 b inside
  have before := exact b inside
  omega

theorem count_cons (casMin b : Nat) (it : Tracked) (items : List Tracked) :
    count casMin b (it :: items) = count casMin b items + weight casMin b it := by
  simp [count, weight, List.countP_cons]

theorem count_erase (casMin b : Nat) (mem : it ∈ items) :
    count casMin b items = count casMin b (items.erase it) + weight casMin b it := by
  rw [← count_cons]
  exact (List.perm_cons_erase mem).countP_eq _

theorem weight_eq (casMin b : Nat) (it : Tracked) :
    weight casMin b it = if casMin ≤ it.cas ∧ bucketOf it.ntotal = b then 1 else 0 := by
  simp [weight, count, List.countP_cons]

/-- The tracker only changes the histogram. -/
theorem track_eq (change : Int) (s : State) (it : Tracked) : ∃ hist,
    track change s it = { s with statsSizesHist := hist } ∧ ∀ b < s.statsSizesBuckets,
      hist b = s.statsSizesHist b + change * weight s.statsSizesCasMin b it := by
  unfold track
  split
  · next counted =>
      refine ⟨_, rfl, fun b _ => ?_⟩
      by_cases here : b = bucketOf it.ntotal
      · simp [weight_eq, here, counted.1]
      · simp [weight_eq, here, Ne.symm here]
  · next ignored =>
      refine ⟨_, rfl, fun b inside => ?_⟩
      have none : ¬(s.statsSizesCasMin ≤ it.cas ∧ bucketOf it.ntotal = b) := by
        rintro ⟨since, rfl⟩
        exact ignored ⟨since, inside⟩
      simp [weight_eq, none]

theorem keeps_doItemLink (s : State) (ptr ntotal : Nat) : Keeps s (doItemLink s ptr ntotal) := by
  let it : Tracked := ⟨ptr, s.nextCas, ntotal⟩
  obtain ⟨hist, tracked, counted⟩ := track_eq 1 { s.issue with linked := it :: s.linked } it
  rw [doItemLink, itemStatsSizesAdd, tracked]
  refine ⟨rfl, fun b inside => ?_⟩
  have entered := count_cons s.statsSizesCasMin b it s.linked
  have here := counted b inside
  dsimp only [State.issue] at here ⊢
  omega

theorem keeps_doItemUnlink (s : State) (it : Tracked) : Keeps s (doItemUnlink s it) := by
  unfold doItemUnlink
  split
  · next mem =>
      obtain ⟨hist, tracked, counted⟩ := track_eq (-1) { s with linked := s.linked.erase it } it
      rw [itemStatsSizesRemove, tracked]
      refine ⟨rfl, fun b inside => ?_⟩
      have left := count_erase s.statsSizesCasMin b mem
      have here := counted b inside
      dsimp only at here ⊢
      omega
  · exact ⟨rfl, fun _ _ => rfl⟩

theorem keeps_doItemReplace (s : State) (it : Tracked) (ptr ntotal : Nat) :
    Keeps s (doItemReplace s it ptr ntotal) :=
  (keeps_doItemUnlink s it).trans (keeps_doItemLink _ ptr ntotal)

/-- Between the two calls of the tracker the item may change. -/
theorem keeps_deltaInPlace (mem : it ∈ s.linked) :
    Keeps s (itemStatsSizesAdd (restamp (itemStatsSizesRemove s it) it)
      { it with cas := s.nextCas }) := by
  let it' : Tracked := { it with cas := s.nextCas }
  obtain ⟨hist, removed, counted⟩ := track_eq (-1) s it
  rw [itemStatsSizesRemove, removed]
  obtain ⟨hist', added, counted'⟩ :=
    track_eq 1 (restamp { s with statsSizesHist := hist } it) it'
  rw [itemStatsSizesAdd, added]
  refine ⟨rfl, fun b inside => ?_⟩
  have left := count_erase s.statsSizesCasMin b mem
  have entered := count_cons s.statsSizesCasMin b it' (s.linked.erase it)
  have out := counted b inside
  have back := counted' b inside
  dsimp only [restamp, State.issue] at out back ⊢
  change hist' b + _ = _ + ((count s.statsSizesCasMin b (it' :: s.linked.erase it) : Nat) : Int)
  omega

/-- A new unique outside of these calls. -/
theorem exact_restamp_iff (exact : Exact s) (mem : it ∈ s.linked) : Exact (restamp s it) ↔
    (bucketOf it.ntotal < s.statsSizesBuckets →
      (s.statsSizesCasMin ≤ it.cas ↔ s.statsSizesCasMin ≤ s.nextCas)) := by
  let it' : Tracked := { it with cas := s.nextCas }
  have same (b : Nat) (inside : b < s.statsSizesBuckets) :
      s.statsSizesHist b = count s.statsSizesCasMin b (it' :: s.linked.erase it) ↔
        weight s.statsSizesCasMin b it = weight s.statsSizesCasMin b it' := by
    have left := count_erase s.statsSizesCasMin b mem
    have entered := count_cons s.statsSizesCasMin b it' (s.linked.erase it)
    rw [exact b inside]
    omega
  have own : weight s.statsSizesCasMin (bucketOf it.ntotal) it =
      weight s.statsSizesCasMin (bucketOf it.ntotal) it' ↔
      (s.statsSizesCasMin ≤ it.cas ↔ s.statsSizesCasMin ≤ s.nextCas) := by
    rw [weight_eq, weight_eq]
    by_cases before : s.statsSizesCasMin ≤ it.cas <;>
      by_cases after : s.statsSizesCasMin ≤ s.nextCas <;> simp [it', before, after]
  constructor
  · exact fun exact' inside => own.mp ((same _ inside).mp (exact' _ inside))
  · intro moved b inside
    refine (same b inside).mpr ?_
    by_cases here : bucketOf it.ntotal = b
    · subst here
      exact own.mpr (moved inside)
    · simp [weight_eq, it', here]

/-- The histogram stays exact in a run exactly if no item from before the tracker is marked as
stale and so brought under it. -/
theorem sizes_exact_iff (itemSizeMax : Nat) (ops : List Op)
    (old : ∀ it ∈ s.linked, it.cas < s.nextCas) :
    Throughout step Exact (itemStatsSizesInit itemSizeMax s) ops ↔
      Meets step Unmoved (itemStatsSizesInit itemSizeMax s) ops := by
  refine throughout_iff_meets (I := Exact) ?_ (fun _ exact => exact) ?_ ?_ ?_
  · rintro s op -
    cases op with
    | store old ptr ntotal => cases old <;> exact ⟨_, rfl⟩
    | deltaInPlace it | invalidate it =>
      simp only [step]
      split <;> exact ⟨_, rfl⟩
    | _ => exact ⟨_, rfl⟩
  · intro s op s' exact unmoved ran
    cases op with
    | store old ptr ntotal =>
      cases old with
      | none =>
        cases ran
        exact (keeps_doItemLink s ptr ntotal).exact exact
      | some old =>
        cases ran
        exact (keeps_doItemReplace s old ptr ntotal).exact exact
    | unlink it =>
      cases ran
      exact (keeps_doItemUnlink s it).exact exact
    | deltaInPlace it =>
      simp only [step] at ran
      split at ran
      · next mem =>
          cases ran
          exact (keeps_deltaInPlace mem).exact exact
      · cases ran
        exact exact
    | deltaReplace it ptr ntotal =>
      cases ran
      exact (keeps_doItemReplace s it ptr ntotal).exact exact
    | invalidate it =>
      simp only [step] at ran
      split at ran
      · next mem =>
          cases ran
          exact (exact_restamp_iff exact mem).mpr (unmoved it rfl mem)
      · cases ran
        exact exact
    | relocate it ptr =>
      cases ran
      exact (keeps_doItemReplace s it ptr it.ntotal).exact exact
  · rintro s op s' exact ran exact' it rfl mem
    simp only [step, if_pos mem] at ran
    cases ran
    exact (exact_restamp_iff exact mem).mp exact'
  · intro b inside
    have none : count s.nextCas b s.linked = 0 := by
      rw [count, List.countP_eq_zero]
      intro it mem counted
      exact absurd (old it mem) (Nat.not_lt.mpr (of_decide_eq_true counted).1)
    exact (congrArg Nat.cast none).symm

/-- One item from before the tracker was started. -/
def oneItem : State := { useCas := true, casId := 1, linked := [⟨0, 1, 80⟩] }

/-- An item that is stored later is marked as stale. -/
theorem sizes_exact_stored : Throughout step Exact (itemStatsSizesInit 1024 oneItem)
    [.store none 1 80, .invalidate ⟨1, 3, 80⟩, .unlink ⟨1, 4, 80⟩] := by
  refine (sizes_exact_iff 1024 _ (by decide)).mpr ⟨fun it eq => (by cases eq),
    fun s₁ ran => ?_⟩
  cases ran
  refine ⟨fun it eq _ _ => ?_, fun _ _ =>
    ⟨fun it eq => (by cases eq), fun _ _ => trivial⟩⟩
  cases eq
  decide

/-- The item from before is marked as stale and deleted, and a bucket is below zero. -/
theorem invalidated_below_zero : ∃ s, run step (itemStatsSizesInit 1024 oneItem)
    [.invalidate ⟨0, 1, 80⟩, .unlink ⟨0, 3, 80⟩] = .ok s ∧ s.linked = [] ∧
      s.statsSizesHist 3 = -1 :=
  ⟨_, rfl, by decide, by decide⟩

end Kvsev.Server.Sizes
