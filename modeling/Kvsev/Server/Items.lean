import Mathlib.Logic.Relation
import Kvsev.Server.Item

/-!
# Allocating, linking and finding items

The functions of `items.c` that the storage commands reach. Assertions are
compiled out of the server, so a function acts on whatever item it is given.

`Shrinks` collects what most of them have in common: they link nothing and
leave alone what one looks at in the items that exist.
-/

namespace Kvsev.Server

open Function

/-- `ITEM_get_cas` -/
def itemGetCas (s : State) (it : Item) : Nat := if s.settings.useCas then it.cas else 0

/-- `ITEM_set_cas` -/
def itemSetCas (s : State) (it : Item) (cas : Nat) : Item :=
  if s.settings.useCas then { it with cas } else it

/-- The unique of the next item that is linked. -/
def nextCas (s : State) : Nat := if s.settings.useCas then u64 (s.casId + 1) else 0

theorem itemSetCas_eq (s : State) (it : Item) (cas : Nat) :
    itemSetCas s it cas = { it with cas := if s.settings.useCas then cas else it.cas } := by
  unfold itemSetCas
  split <;> rfl

@[simp] theorem itemSetCas_key (s : State) (it : Item) (cas : Nat) :
    (itemSetCas s it cas).key = it.key := by rw [itemSetCas_eq]

@[simp] theorem itemSetCas_linked (s : State) (it : Item) (cas : Nat) :
    (itemSetCas s it cas).linked = it.linked := by rw [itemSetCas_eq]

@[simp] theorem itemSetCas_chunked (s : State) (it : Item) (cas : Nat) :
    (itemSetCas s it cas).chunked = it.chunked := by rw [itemSetCas_eq]

/-- The item that `do_item_alloc` makes of a piece of memory; the header fields
`mac` and `mt_index` keep what they find there. -/
def newItem (s : State) (key : Key) (flags exptime nbytes : Nat) (left : Leftover) : Item :=
  { key, time := 0, exptime, refcount := 1, linked := false
    chunked := isLarge s.settings key.length flags nbytes
    stale := false, tokenSent := false, flags, cas := 0
    data := (List.range nbytes).map left.bytes
    mac := left.mac, mtIndex := left.mtIndex }

/-- `do_item_alloc`. The slab allocator's answer is an input. -/
def doItemAlloc (s : State) (key : Key) (flags exptime nbytes : Nat) (alloc : ItemAlloc) :
    Option ItemPtr × State :=
  if itemSizeOk s.settings key.length flags nbytes then
    match alloc with
    | none => (none, s)
    | some left =>
      (some s.next,
        { s with
          heap := update s.heap s.next (newItem s key flags exptime nbytes left)
          next := s.next + 1 })
  else (none, s)

/-- Without memory nothing happens. -/
theorem doItemAlloc_none {s s' : State} {key : Key} {flags exptime nbytes : Nat}
    {alloc : ItemAlloc} (ran : doItemAlloc s key flags exptime nbytes alloc = (none, s')) :
    s' = s := by
  unfold doItemAlloc at ran
  split at ran
  · split at ran
    · exact (Prod.mk.inj ran).2.symm
    · cases ran
  · exact (Prod.mk.inj ran).2.symm

/-- An allocation that succeeds was of an acceptable size, and it adds a fresh item. -/
theorem doItemAlloc_made {s s' : State} {key : Key} {flags exptime nbytes : Nat} {alloc : ItemAlloc}
    {p : ItemPtr} (ran : doItemAlloc s key flags exptime nbytes alloc = (some p, s')) :
    itemSizeOk s.settings key.length flags nbytes = true ∧ ∃ left, alloc = some left ∧ p = s.next ∧
      s' = { s with
        heap := update s.heap s.next (newItem s key flags exptime nbytes left)
        next := s.next + 1 } := by
  unfold doItemAlloc at ran
  split at ran
  · rename_i ok
    split at ran
    · cases ran
    · rename_i left
      cases ran
      exact ⟨ok, left, rfl, rfl, rfl⟩
  · cases ran

theorem doItemAlloc_some {s s' : State} {key : Key} {flags exptime nbytes : Nat} {alloc : ItemAlloc}
    {p : ItemPtr} (ran : doItemAlloc s key flags exptime nbytes alloc = (some p, s')) :
    itemSizeOk s.settings key.length flags nbytes = true ∧
      ∃ left, alloc = some left ∧ p = s.next ∧ s'.next = s.next + 1 ∧
        s'.heap p = newItem s key flags exptime nbytes left := by
  obtain ⟨ok, left, given, rfl, rfl⟩ := doItemAlloc_made ran
  exact ⟨ok, left, given, rfl, rfl, by simp⟩

theorem doItemAlloc_of_room {s : State} {key : Key} {flags nbytes : Nat} {alloc : ItemAlloc}
    (exptime : Nat)
    (room : itemSizeOk s.settings key.length flags nbytes = true ∧ alloc.isSome = true) :
    ∃ p s', doItemAlloc s key flags exptime nbytes alloc = (some p, s') := by
  obtain ⟨left, rfl⟩ := Option.isSome_iff_exists.mp room.2
  simp only [doItemAlloc, room.1, if_true]
  exact ⟨_, _, rfl⟩

/-- `refcount_incr` -/
def refcountIncr (s : State) (p : ItemPtr) : State :=
  s.modify p fun it =>
    { it with refcount := it.refcount + 1, peak := max it.peak (it.refcount + 1) }

/-- `do_item_link` -/
def doItemLink (s : State) (p : ItemPtr) : State :=
  let casId := if s.settings.useCas then u64 (s.casId + 1) else s.casId
  let s₁ := s.modify p fun it =>
    { itemSetCas s it casId with
      linked := true, time := s.currentTime
      refcount := it.refcount + 1, peak := max it.peak (it.refcount + 1) }
  { s₁ with
    totalItems := u64 (s.totalItems + 1)
    casId
    assoc := update s.assoc (s.heap p).key (some p) }

/-- `do_item_remove`; the memory of an item without references goes back to the
slab allocator and is not looked at any more. -/
def doItemRemove (s : State) (p : ItemPtr) : State :=
  s.modify p fun it =>
    let refcount := it.refcount - 1
    { it with refcount, freed := if refcount = 0 then it.freed + 1 else it.freed }

/-- `do_item_unlink` -/
def doItemUnlink (s : State) (p : ItemPtr) : State :=
  if (s.heap p).linked then
    let s₁ := s.modify p fun it => { it with linked := false }
    doItemRemove { s₁ with assoc := update s.assoc (s.heap p).key none } p
  else s

/-- `do_item_update`, with segmented LRU lists. -/
def doItemUpdate (s : State) (p : ItemPtr) : State :=
  if (s.heap p).linked then s.modify p fun it => { it with time := s.currentTime } else s

/-- `do_item_replace` -/
def doItemReplace (s : State) (old new : ItemPtr) : State :=
  doItemLink (doItemUnlink s old) new

/-- `item_is_flushed` -/
def itemIsFlushed (s : State) (it : Item) : Bool :=
  if s.oldestLive = 0 ∨ s.currentTime < s.oldestLive then false
  else it.time ≤ s.oldestLive ∨
    (s.oldestCas ≠ 0 ∧ itemGetCas s it ≠ 0 ∧ itemGetCas s it < s.oldestCas)

/-- Whether a lookup drops the item. -/
def itemIsDead (s : State) (it : Item) : Bool :=
  itemIsFlushed s it ∨ (it.exptime ≠ 0 ∧ it.exptime ≤ s.currentTime)

/-- `do_item_get`; `bump` tells whether the hit moves the item's time, which
depends on its LRU list and its earlier hits. -/
def doItemGet (s : State) (key : Key) (bump : Bool) : Option ItemPtr × State :=
  match s.assoc key with
  | none => (none, s)
  | some p =>
    let s₁ := refcountIncr s p
    if itemIsDead s (s.heap p) then (none, doItemRemove (doItemUnlink s₁ p) p)
    else if bump then (some p, s₁.modify p fun it => { it with time := s.currentTime })
    else (some p, s₁)

/-! ## The table -/

/-- The table holds existing items, under their own keys, that know of it. -/
structure WellLinked (s : State) : Prop where
  old : ∀ key p, s.assoc key = some p → p < s.next
  key : ∀ key p, s.assoc key = some p → (s.heap p).key = key
  linked : ∀ key p, s.assoc key = some p → (s.heap p).linked = true

theorem WellLinked.init (settings : Settings) : WellLinked (State.init settings) where
  old := fun _ _ found => nomatch found
  key := fun _ _ found => nomatch found
  linked := fun _ _ found => nomatch found

/-- Changes of items other than of their keys and links. -/
theorem WellLinked.of_same {s s' : State} (table : WellLinked s) (assoc : s'.assoc = s.assoc)
    (next : s.next ≤ s'.next)
    (same : ∀ p, p < s.next → (s'.heap p).key = (s.heap p).key ∧
      (s'.heap p).linked = (s.heap p).linked) : WellLinked s' := by
  refine ⟨fun key p found => ?_, fun key p found => ?_, fun key p found => ?_⟩
  · rw [assoc] at found
    exact Nat.lt_of_lt_of_le (table.old key p found) next
  · rw [assoc] at found
    rw [(same p (table.old key p found)).1, table.key key p found]
  · rw [assoc] at found
    rw [(same p (table.old key p found)).2, table.linked key p found]

/-! ## Steps that link nothing -/

/-- The table only lost entries, the counters and the tree are untouched, and
`view` shows the same of every item that existed. -/
structure Shrinks {α : Type} (view : Item → α) (s s' : State) : Prop where
  settings : s'.settings = s.settings
  merkle : s'.merkle = s.merkle
  totalItems : s'.totalItems = s.totalItems
  next : s.next ≤ s'.next
  assoc : ∀ key p, s'.assoc key = some p → s.assoc key = some p
  view : ∀ p, p < s.next → view (s'.heap p) = view (s.heap p)
  table : WellLinked s → WellLinked s'

/-- The table gained the item `p` under its own key and otherwise only lost
entries; one more item was counted. -/
structure Links {α : Type} (view : Item → α) (p : ItemPtr) (s s' : State) : Prop where
  settings : s'.settings = s.settings
  merkle : s'.merkle = s.merkle
  totalItems : s'.totalItems = u64 (s.totalItems + 1)
  next : s.next ≤ s'.next
  here : s'.assoc (s.heap p).key = some p
  assoc : ∀ key q, key ≠ (s.heap p).key → s'.assoc key = some q → s.assoc key = some q
  view : ∀ q, q < s.next → view (s'.heap q) = view (s.heap q)
  table : WellLinked s → WellLinked s'

/-- What a stored item is to its readers: everything but its age, expiry,
references and unique. -/
structure Core where
  key : Key
  chunked : Bool
  flags : Nat
  data : List UInt8
  mac : Vector UInt8 32
  mtIndex : Nat

def Item.core (it : Item) : Core :=
  ⟨it.key, it.chunked, it.flags, it.data, it.mac, it.mtIndex⟩

/-- The view depends on nothing that `Item.core` leaves out. -/
def CoreView {α : Type} (view : Item → α) : Prop :=
  ∀ it it' : Item, it.core = it'.core → view it = view it'

namespace Shrinks

variable {α : Type} {view : Item → α} {s s' s'' : State}

theorem refl (view : Item → α) (s : State) : Shrinks view s s :=
  ⟨rfl, rfl, rfl, Nat.le_refl _, fun _ _ h => h, fun _ _ => rfl, id⟩

/-- Steps that touch neither the items nor the table. -/
theorem of_same (settings : s'.settings = s.settings) (merkle : s'.merkle = s.merkle)
    (totalItems : s'.totalItems = s.totalItems) (next : s'.next = s.next)
    (assoc : s'.assoc = s.assoc) (heap : s'.heap = s.heap) : Shrinks view s s' where
  settings := settings
  merkle := merkle
  totalItems := totalItems
  next := Nat.le_of_eq next.symm
  assoc := fun _ _ found => assoc ▸ found
  view := fun p _ => by rw [heap]
  table := fun table =>
    table.of_same assoc (Nat.le_of_eq next.symm) fun p _ => by rw [heap]; exact ⟨rfl, rfl⟩

theorem trans (first : Shrinks view s s') (second : Shrinks view s' s'') :
    Shrinks view s s'' where
  settings := second.settings.trans first.settings
  merkle := second.merkle.trans first.merkle
  totalItems := second.totalItems.trans first.totalItems
  next := Nat.le_trans first.next second.next
  assoc := fun key p h => first.assoc key p (second.assoc key p h)
  view := fun p lt =>
    (second.view p (Nat.lt_of_lt_of_le lt first.next)).trans (first.view p lt)
  table := fun table => second.table (first.table table)

/-- A view that shows less. -/
theorem of_core (shrinks : Shrinks Item.core s s') (coreView : CoreView view) :
    Shrinks view s s' :=
  { shrinks with view := fun p lt => coreView _ _ (shrinks.view p lt) }

/-- Changing one item in a way that `view` does not show. -/
theorem modifyAt {s : State} {p : ItemPtr} {f : Item → Item}
    (same : view (f (s.heap p)) = view (s.heap p)) (key : (f (s.heap p)).key = (s.heap p).key)
    (linked : (f (s.heap p)).linked = (s.heap p).linked) : Shrinks view s (s.modify p f) := by
  have items : ∀ q, view ((s.modify p f).heap q) = view (s.heap q) ∧
      ((s.modify p f).heap q).key = (s.heap q).key ∧
      ((s.modify p f).heap q).linked = (s.heap q).linked := by
    intro q
    by_cases here : q = p
    · subst q
      rw [State.modify_heap_self]
      exact ⟨same, key, linked⟩
    · rw [State.modify_heap_of_ne f here]
      exact ⟨rfl, rfl, rfl⟩
  exact ⟨rfl, rfl, rfl, Nat.le_refl _, fun _ _ h => h, fun q _ => (items q).1,
    fun table => table.of_same rfl (Nat.le_refl _) fun q _ => (items q).2⟩

theorem modify (s : State) (p : ItemPtr) {f : Item → Item} (same : ∀ it, view (f it) = view it)
    (key : ∀ it, (f it).key = it.key) (linked : ∀ it, (f it).linked = it.linked) :
    Shrinks view s (s.modify p f) :=
  modifyAt (same _) (key _) (linked _)

theorem refcountIncr (s : State) (p : ItemPtr) : Shrinks Item.core s (refcountIncr s p) :=
  modify s p (fun _ => rfl) (fun _ => rfl) fun _ => rfl

theorem doItemRemove (s : State) (p : ItemPtr) : Shrinks Item.core s (doItemRemove s p) :=
  modify s p (fun _ => rfl) (fun _ => rfl) fun _ => rfl

theorem doItemUpdate (s : State) (p : ItemPtr) : Shrinks Item.core s (doItemUpdate s p) := by
  simp only [Server.doItemUpdate]
  split
  · exact modify s p (fun _ => rfl) (fun _ => rfl) fun _ => rfl
  · exact refl _ s

/-- Taking an item out of the table. -/
theorem unlink (s : State) (p : ItemPtr) :
    Shrinks Item.core s { s.modify p fun it => { it with linked := false } with
      assoc := update s.assoc (s.heap p).key none } := by
  have entries : ∀ key q, update s.assoc (s.heap p).key none key = some q →
      key ≠ (s.heap p).key ∧ s.assoc key = some q := by
    intro key q found
    by_cases here : key = (s.heap p).key
    · subst here
      simp at found
    · exact ⟨here, by simpa [here] using found⟩
  refine ⟨rfl, rfl, rfl, Nat.le_refl _, fun key q found => (entries key q found).2,
    fun q _ => ?_, fun table => ⟨?_, ?_, ?_⟩⟩
  · by_cases here : q = p
    · subst q
      simp [State.modify, Item.core]
    · simp [State.modify, here]
  · intro key q found
    exact table.old key q (entries key q found).2
  · intro key q found
    obtain ⟨_, found⟩ := entries key q found
    by_cases here : q = p
    · subst q
      simpa [State.modify] using table.key key p found
    · simpa [State.modify, here] using table.key key q found
  · -- Another key cannot hold the same item.
    intro key q found
    obtain ⟨ne, found⟩ := entries key q found
    have other : q ≠ p := fun same => ne (same ▸ (table.key key q found).symm)
    simpa [State.modify, other] using table.linked key q found

theorem doItemUnlink (s : State) (p : ItemPtr) : Shrinks Item.core s (doItemUnlink s p) := by
  simp only [Server.doItemUnlink]
  split
  · exact (unlink s p).trans (doItemRemove _ p)
  · exact refl _ s

theorem doItemGet (s : State) (key : Key) (bump : Bool) :
    Shrinks Item.core s (doItemGet s key bump).2 := by
  unfold Server.doItemGet
  split
  · exact refl _ s
  rename_i p _
  have held := refcountIncr s p
  dsimp only
  split
  · exact (held.trans (doItemUnlink _ p)).trans (doItemRemove _ p)
  · split
    · dsimp only
      exact held.trans (modify _ p (fun _ => rfl) (fun _ => rfl) fun _ => rfl)
    · exact held

/-- Handing out memory for a new item. -/
theorem fresh (s : State) (it : Item) :
    Shrinks Item.core s
      { s with heap := update s.heap s.next it, next := s.next + 1 } := by
  have old : ∀ p, p < s.next → update s.heap s.next it p = s.heap p := by
    intro p lt
    simp [Nat.ne_of_lt lt]
  refine ⟨rfl, rfl, rfl, Nat.le_succ _, fun _ _ h => h, fun p lt => ?_, fun table =>
    table.of_same rfl (Nat.le_succ _) fun p lt => ?_⟩
  · exact congrArg Item.core (old p lt)
  · exact ⟨congrArg Item.key (old p lt), congrArg Item.linked (old p lt)⟩

theorem doItemAlloc (s : State) (key : Key) (flags exptime nbytes : Nat) (alloc : ItemAlloc) :
    Shrinks Item.core s (doItemAlloc s key flags exptime nbytes alloc).2 := by
  simp only [Server.doItemAlloc]
  split
  · split
    · exact refl _ s
    · exact fresh s _
  · exact refl _ s

end Shrinks

/-! ## Giving items up -/

/-- References are counted anew, an item is unlinked, or a key is looked up. -/
inductive Shed (s : State) : State → Prop
  | count (p : ItemPtr) (refcount freed peak : Item → Nat) :
    Shed s (s.modify p fun it =>
      { it with refcount := refcount it, freed := freed it, peak := peak it })
  | unlink (p : ItemPtr) : Shed s (doItemUnlink s p)
  | lookup (key : Key) (bump : Bool) : Shed s (doItemGet s key bump).2

/-- Such steps, one after the other. -/
abbrev Sheds : State → State → Prop := Relation.ReflTransGen Shed

namespace Sheds

variable {s s' : State}

/-- What every step keeps, all of them keep. -/
theorem rule {P : State → Prop} (step : ∀ {s s'}, Shed s s' → P s → P s') (sheds : Sheds s s')
    (start : P s) : P s' := by
  induction sheds with
  | refl => exact start
  | tail _ one ih => exact step one ih

theorem refcountIncr (s : State) (p : ItemPtr) : Sheds s (refcountIncr s p) :=
  .single (.count p _ _ _)

theorem doItemRemove (s : State) (p : ItemPtr) : Sheds s (doItemRemove s p) :=
  .single (.count p _ _ _)

theorem drop (s : State) (p : ItemPtr) :
    Sheds s (Server.doItemRemove (Server.doItemUnlink s p) p) :=
  .head (.unlink p) (doItemRemove _ p)

theorem doItemGet {key : Key} {bump : Bool} {found : Option ItemPtr}
    (ran : doItemGet s key bump = (found, s')) : Sheds s s' := by
  have looked := Shed.lookup (s := s) key bump
  rw [ran] at looked
  exact .single looked

end Sheds

theorem Shrinks.of_sheds {s s' : State} (sheds : Sheds s s') : Shrinks Item.core s s' := by
  refine sheds.rule (P := Shrinks Item.core s) (fun step before => before.trans ?_) (.refl _ s)
  cases step with
  | count p => exact .modify _ p (fun _ => rfl) (fun _ => rfl) fun _ => rfl
  | unlink p => exact .doItemUnlink _ p
  | lookup key bump => exact .doItemGet _ key bump

namespace Links

variable {p : ItemPtr} {s s' s'' : State}

theorem after (first : Shrinks Item.core s s') (old : p < s.next)
    (second : Links Item.core p s' s'') : Links Item.core p s s'' := by
  have key : (s'.heap p).key = (s.heap p).key := congrArg Core.key (first.view p old)
  refine ⟨second.settings.trans first.settings, second.merkle.trans first.merkle, ?_,
    Nat.le_trans first.next second.next, key ▸ second.here, fun k q ne found => ?_,
    fun q lt => ?_, fun table => second.table (first.table table)⟩
  · rw [second.totalItems, first.totalItems]
  · exact first.assoc k q (second.assoc k q (key ▸ ne) found)
  · exact (second.view q (Nat.lt_of_lt_of_le lt first.next)).trans (first.view q lt)

theorem doItemLink (s : State) (lt : p < s.next) : Links Item.core p s (doItemLink s p) := by
  have here : ((Server.doItemLink s p).heap p).core = (s.heap p).core ∧
      ((Server.doItemLink s p).heap p).linked = true := by
    simp only [Server.doItemLink, State.modify, update_self, itemSetCas, and_true]
    split <;> rfl
  have others : ∀ q, q ≠ p → (Server.doItemLink s p).heap q = s.heap q := by
    intro q ne
    simp [Server.doItemLink, State.modify, ne]
  have entries : ∀ key q, (Server.doItemLink s p).assoc key = some q →
      (key = (s.heap p).key ∧ q = p) ∨ (key ≠ (s.heap p).key ∧ s.assoc key = some q) := by
    intro key q found
    by_cases same : key = (s.heap p).key
    · subst same
      have same : some p = some q := by simpa [Server.doItemLink] using found
      exact .inl ⟨rfl, (Option.some.inj same).symm⟩
    · exact .inr ⟨same, by simpa [Server.doItemLink, same] using found⟩
  refine ⟨rfl, rfl, rfl, Nat.le_refl _, by simp [Server.doItemLink], fun key q ne found => ?_,
    fun q _ => ?_, fun table => ⟨?_, ?_, ?_⟩⟩
  · rcases entries key q found with ⟨same, _⟩ | ⟨_, found⟩
    · exact absurd same ne
    · exact found
  · by_cases same : q = p
    · subst q
      exact here.1
    · rw [others q same]
  · intro key q found
    rcases entries key q found with ⟨_, rfl⟩ | ⟨_, found⟩
    · exact lt
    · exact table.old key q found
  · intro key q found
    rcases entries key q found with ⟨rfl, rfl⟩ | ⟨_, found⟩
    · exact congrArg Core.key here.1
    · by_cases same : q = p
      · subst q
        exact (congrArg Core.key here.1).trans (table.key key p found)
      · rw [others q same, table.key key q found]
  · intro key q found
    by_cases same : q = p
    · subst q
      exact here.2
    · rcases entries key q found with ⟨_, rfl⟩ | ⟨_, found⟩
      · exact absurd rfl same
      · rw [others q same, table.linked key q found]

theorem doItemReplace (s : State) (old : ItemPtr) (lt : p < s.next) :
    Links Item.core p s (doItemReplace s old p) := by
  have unlinked := Shrinks.doItemUnlink s old
  exact after unlinked lt (doItemLink _ (Nat.lt_of_lt_of_le lt unlinked.next))

/-- Releasing references after linking. -/
theorem remove (links : Links Item.core p s s') (q : ItemPtr) :
    Links Item.core p s (doItemRemove s' q) := by
  have release := Shrinks.doItemRemove s' q
  exact { links with
    view := fun r lt =>
      (release.view r (Nat.lt_of_lt_of_le lt links.next)).trans (links.view r lt)
    table := fun table => release.table (links.table table) }

end Links

/-! ## Lookups -/

/-- The item that a lookup of the key would find now. -/
def liveItem (s : State) (key : Key) : Option ItemPtr :=
  match s.assoc key with
  | none => none
  | some p => if itemIsDead s (s.heap p) then none else some p

theorem doItemGet_fst (s : State) (key : Key) (bump : Bool) :
    (doItemGet s key bump).1 = liveItem s key := by
  simp only [doItemGet, liveItem]
  cases s.assoc key with
  | none => rfl
  | some p =>
    dsimp only
    split
    · rfl
    · split <;> rfl

theorem liveItem_eq_some {s : State} {key : Key} {p : ItemPtr} : liveItem s key = some p ↔
    s.assoc key = some p ∧ itemIsDead s (s.heap p) = false := by
  unfold liveItem
  cases s.assoc key with
  | none => simp
  | some q =>
    by_cases dead : itemIsDead s (s.heap q) = true
    · simp only [dead, if_true, reduceCtorEq, Option.some.injEq, false_iff]
      rintro ⟨rfl, alive⟩
      rw [dead] at alive
      cases alive
    · simp only [dead, Bool.false_eq_true, if_false, Option.some.injEq, iff_self_and]
      rintro rfl
      exact Bool.eq_false_iff.mpr dead

/-- A lookup returns the item the table holds, and only if it is alive. -/
theorem doItemGet_some {s : State} {key : Key} {bump : Bool} {p : ItemPtr}
    (found : (doItemGet s key bump).1 = some p) :
    s.assoc key = some p ∧ itemIsDead s (s.heap p) = false :=
  liveItem_eq_some.mp ((doItemGet_fst s key bump).symm.trans found)

end Kvsev.Server
