import Kvsev.Counted.Ledger
import Kvsev.Server.Background

/-!
# Who holds an item

An item counts the references to it: one of the hash table while it is linked, and
one for each holder. `Accounted held limit s` says that the counts of the state are
exact for an account of the holders, and that the table and the flags of the items
agree. Each function of `items.c` and each command has a rule: what it does to the
account of an exact state.
-/

namespace Kvsev.Server

open Counted

/-- An item as an object that counts its references. -/
def entry (s : State) (p : ItemPtr) : Entry where
  known := p < s.next
  rooted := (s.heap p).linked
  count := (s.heap p).refcount
  freed := (s.heap p).freed
  peak := (s.heap p).peak

theorem entry_congr {s s' : State} {p : ItemPtr} (next : s'.next = s.next)
    (heap : s'.heap p = s.heap p) : entry s' p = entry s p := by
  rw [entry, next, heap, entry]

/-- Two items with the same key, place and references. -/
structure Alike (it' it : Item) : Prop where
  key : it'.key = it.key
  linked : it'.linked = it.linked
  refcount : it'.refcount = it.refcount
  freed : it'.freed = it.freed
  peak : it'.peak = it.peak

theorem alike_itemSetCas (s : State) (it : Item) (cas : Nat) : Alike (itemSetCas s it cas) it := by
  rw [itemSetCas_eq]
  exact ⟨rfl, rfl, rfl, rfl, rfl⟩

theorem Alike.trans {it'' it' it : Item} (second : Alike it'' it') (first : Alike it' it) :
    Alike it'' it :=
  ⟨second.key.trans first.key, second.linked.trans first.linked,
    second.refcount.trans first.refcount, second.freed.trans first.freed,
    second.peak.trans first.peak⟩

theorem Alike.withData {it' it : Item} (alike : Alike it' it) (data : List UInt8) :
    Alike { it' with data } it :=
  ⟨alike.key, alike.linked, alike.refcount, alike.freed, alike.peak⟩

/-- The counts are exact, and what is marked as linked is in the table. -/
structure Accounted (held : ItemPtr → Nat) (limit : Nat) (s : State) : Prop where
  exact : Exact held limit (entry s)
  table : WellLinked s
  listed : ∀ p, (s.heap p).linked = true → s.assoc (s.heap p).key = some p

/-- Items outside the table are left alone, apart from some that are the caller's own,
and no response is added or sent. -/
structure LeavesFree (own : ItemPtr → Prop) (s s' : State) : Prop where
  next : s.next ≤ s'.next
  heap : ∀ q, q < s.next → ¬own q → (s.heap q).linked = false → s'.heap q = s.heap q
  pending : s'.pending = s.pending

/-- The books are kept, and nobody else's item is touched. -/
abbrev Settled (held : ItemPtr → Nat) (limit : Nat) (s s' : State) : Prop :=
  Accounted held limit s' ∧ LeavesFree (fun _ => False) s s'

namespace LeavesFree

variable {own : ItemPtr → Prop} {s s' s'' : State}

theorem refl (own : ItemPtr → Prop) (s : State) : LeavesFree own s s :=
  ⟨Nat.le_refl _, fun _ _ _ _ => rfl, rfl⟩

theorem trans (first : LeavesFree own s s') (second : LeavesFree own s' s'') :
    LeavesFree own s s'' := by
  refine ⟨Nat.le_trans first.next second.next, fun q lt foreign free => ?_,
    second.pending.trans first.pending⟩
  have same := first.heap q lt foreign free
  rw [second.heap q (Nat.lt_of_lt_of_le lt first.next) foreign (same ▸ free), same]

/-- What is in the table need not be the caller's own. -/
theorem weaken {own' : ItemPtr → Prop} (spares : LeavesFree own s s')
    (le : ∀ q, q < s.next → own q → own' q ∨ (s.heap q).linked = true) : LeavesFree own' s s' := by
  refine ⟨spares.next, fun q lt foreign free => spares.heap q lt (fun mine => ?_) free,
    spares.pending⟩
  rcases le q lt mine with mine | linked
  · exact foreign mine
  · rw [free] at linked
    cases linked

/-- A change of one item that is in the table or the caller's own. -/
theorem modify {p : ItemPtr} (mine : (s.heap p).linked = true ∨ own p) (f : Item → Item) :
    LeavesFree own s (s.modify p f) := by
  refine ⟨Nat.le_refl _, fun q _ foreign free => State.modify_heap_of_ne f ?_, rfl⟩
  rintro rfl
  rcases mine with linked | mine
  · rw [free] at linked
    cases linked
  · exact foreign mine

end LeavesFree

@[simp] theorem itemSetCas_freed (s : State) (it : Item) (cas : Nat) :
    (itemSetCas s it cas).freed = it.freed := by rw [itemSetCas_eq]

theorem doItemRemove_heap_of_ne (s : State) {p q : ItemPtr} (ne : q ≠ p) :
    (doItemRemove s p).heap q = s.heap q :=
  State.modify_heap_of_ne _ ne

theorem doItemUnlink_heap_of_ne (s : State) {p q : ItemPtr} (ne : q ≠ p) :
    (doItemUnlink s p).heap q = s.heap q := by
  simp only [doItemUnlink]
  split
  · rw [doItemRemove_heap_of_ne _ ne]
    simp [State.modify, ne]
  · rfl

theorem doItemUnlink_pending (s : State) (p : ItemPtr) :
    (doItemUnlink s p).pending = s.pending := by
  simp only [doItemUnlink]
  split <;> rfl

theorem doItemLink_heap_of_ne (s : State) {p q : ItemPtr} (ne : q ≠ p) :
    (doItemLink s p).heap q = s.heap q := by
  simp [doItemLink, State.modify, ne]

namespace LeavesFree

variable {own : ItemPtr → Prop} {s : State} {p : ItemPtr}

theorem doItemRemove (mine : (s.heap p).linked = true ∨ own p) :
    LeavesFree own s (Server.doItemRemove s p) :=
  modify mine _

theorem doItemUnlink (mine : (s.heap p).linked = true ∨ own p) :
    LeavesFree own s (Server.doItemUnlink s p) := by
  refine ⟨(Shrinks.doItemUnlink s p).next, fun q _ foreign free => doItemUnlink_heap_of_ne s ?_,
    doItemUnlink_pending s p⟩
  rintro rfl
  rcases mine with linked | mine
  · rw [free] at linked
    cases linked
  · exact foreign mine

theorem doItemLink (mine : own p) : LeavesFree own s (Server.doItemLink s p) :=
  ⟨Nat.le_refl _, fun _ _ foreign _ => doItemLink_heap_of_ne _ fun same => foreign (same ▸ mine),
    rfl⟩

theorem doItemReplace {old : ItemPtr} (mineOld : (s.heap old).linked = true ∨ own old)
    (mine : own p) : LeavesFree own s (Server.doItemReplace s old p) :=
  (doItemUnlink mineOld).trans (doItemLink mine)

theorem doItemUpdate (mine : (s.heap p).linked = true ∨ own p) :
    LeavesFree own s (Server.doItemUpdate s p) := by
  simp only [Server.doItemUpdate]
  split
  · exact modify mine _
  · exact refl own s

theorem deltaInPlace {text : List UInt8} (mine : own p) :
    LeavesFree own s (Server.deltaInPlace s p text) := by
  have written : ∀ casId f, LeavesFree own s { s.modify p f with casId } := by
    intro casId f
    refine ⟨Nat.le_refl _, fun q _ foreign _ => State.modify_heap_of_ne f ?_, rfl⟩
    rintro rfl
    exact foreign mine
  exact (written _ _).trans (doItemUpdate (.inr mine))

theorem doItemAlloc {key : Key} {flags exptime nbytes : Nat} {alloc : ItemAlloc} {s' : State}
    {found : Option ItemPtr}
    (ran : doItemAlloc s key flags exptime nbytes alloc = (found, s')) : LeavesFree own s s' := by
  cases found with
  | none =>
    rw [doItemAlloc_none ran]
    exact refl own s
  | some p =>
    obtain ⟨-, left, -, -, rfl⟩ := doItemAlloc_made ran
    exact ⟨Nat.le_succ _, fun q lt _ _ => by simp [Nat.ne_of_lt lt], rfl⟩

end LeavesFree

namespace Accounted

variable {held held' : ItemPtr → Nat} {limit : Nat} {s s' : State} {p q : ItemPtr} {key : Key}

theorem mono {limit' : Nat} (acc : Accounted held limit s) (le : limit ≤ limit') :
    Accounted held limit' s :=
  { acc with exact := acc.exact.mono le }

/-- An empty server, in which nobody holds anything. -/
protected theorem init (settings : Settings) (limit : Nat) :
    Accounted (fun _ => 0) limit (State.init settings) where
  exact := fun p => ⟨fun known => by simp [entry, State.init] at known,
    fun known => by simp [entry, State.init] at known,
    fun known => by simp [entry, State.init] at known, fun _ => rfl⟩
  table := WellLinked.init settings
  listed := fun p linked => by cases linked

section

variable (acc : Accounted held limit s)

include acc

/-- Nothing that is accounted for has changed. -/
theorem of_same (heap : s'.heap = s.heap) (next : s'.next = s.next)
    (assoc : s'.assoc = s.assoc) : Accounted held limit s' := by
  have same : entry s' = entry s := by
    funext p
    exact entry_congr next (by rw [heap])
  refine ⟨same ▸ acc.exact, ?_, fun p linked => ?_⟩
  · exact acc.table.of_same assoc (Nat.le_of_eq next.symm) fun p _ => by rw [heap]; exact ⟨rfl, rfl⟩
  · rw [heap] at linked ⊢
    rw [assoc]
    exact acc.listed p linked

theorem lt_of_linked (linked : (s.heap p).linked = true) :
    p < s.next :=
  acc.table.old _ p (acc.listed p linked)

theorem lt_of_held (pos : 0 < held p) : p < s.next := by
  simpa [entry] using (acc.exact p).known_of_pos pos

/-- A fresh item has no holders. -/
theorem held_next : held s.next = 0 :=
  (acc.exact s.next).unknown (by simp [entry])

theorem refcount_eq (lt : p < s.next) :
    (s.heap p).refcount = (s.heap p).linked.toNat + held p :=
  (acc.exact p).count (by simpa [entry] using lt)

/-- A change of one item that is not about its place in the table. -/
theorem modify {f : Item → Item} (key : (f (s.heap p)).key = (s.heap p).key)
    (linked : (f (s.heap p)).linked = (s.heap p).linked) (others : ∀ q, q ≠ p → held' q = held q)
    (here : (entry (s.modify p f) p).Exact (held' p) limit) :
    Accounted held' limit (s.modify p f) := by
  refine ⟨acc.exact.change p (fun q ne => ⟨?_, others q ne⟩) here, ?_, ?_⟩
  · exact entry_congr rfl (State.modify_heap_of_ne f ne)
  · refine acc.table.of_same rfl (Nat.le_refl _) fun q _ => ?_
    by_cases same : q = p
    · subst q
      rw [State.modify_heap_self]
      exact ⟨key, linked⟩
    · rw [State.modify_heap_of_ne f same]
      exact ⟨rfl, rfl⟩
  · intro q marked
    by_cases same : q = p
    · subst q
      rw [State.modify_heap_self] at marked ⊢
      rw [key]
      exact acc.listed p (linked ▸ marked)
    · rw [State.modify_heap_of_ne f same] at marked ⊢
      exact acc.listed q marked

/-- A change that the account does not see. -/
theorem modify_same (p : ItemPtr) {f : Item → Item}
    (alike : Alike (f (s.heap p)) (s.heap p)) : Accounted held limit (s.modify p f) := by
  refine acc.modify alike.key alike.linked (fun _ _ => rfl) ?_
  have same : entry (s.modify p f) p = entry s p := by
    rw [entry, State.modify_heap_self, alike.linked, alike.refcount, alike.freed, alike.peak]
    rfl
  rw [same]
  exact acc.exact p

end

/-! ## The functions of `items.c` -/

/-- Somebody more holds an item that is linked. -/
protected theorem refcountIncr (acc : Accounted held limit s) (lt : p < s.next)
    (alive : (s.heap p).linked = true ∨ 0 < held p) (room : held p + 2 ≤ limit) :
    Accounted (more held p) limit (refcountIncr s p) := by
  refine acc.modify rfl rfl (fun q ne => more_of_ne held ne) ?_
  have taken : entry (refcountIncr s p) p = (entry s p).acquire := by
    rw [entry, refcountIncr, State.modify_heap_self]
    rfl
  rw [more_self, ← refcountIncr, taken]
  refine (acc.exact p).acquire (by simpa [entry] using lt) alive ?_
  have : (entry s p).rooted.toNat ≤ 1 := Bool.toNat_le _
  omega

/-- A holder gives its reference back. -/
protected theorem doItemRemove (acc : Accounted (more held p) limit s) :
    Accounted held limit (doItemRemove s p) := by
  refine acc.modify rfl rfl (fun q ne => (more_of_ne held ne).symm) ?_
  have released : entry (doItemRemove s p) p = (entry s p).release := by
    rw [entry, doItemRemove, State.modify_heap_self]
    rfl
  rw [← doItemRemove, released]
  have exact := acc.exact p
  rw [more_self] at exact
  exact exact.release

/-- A holder takes the item out of the table. -/
protected theorem doItemUnlink (acc : Accounted held limit s) (pos : 0 < held p) :
    Accounted held limit (doItemUnlink s p) := by
  cases linked : (s.heap p).linked with
  | false =>
    rw [doItemUnlink, if_neg (by simp [linked])]
    exact acc
  | true =>
    have next : (doItemUnlink s p).next = s.next := by simp [doItemUnlink, linked, doItemRemove]
    refine ⟨acc.exact.change p (fun q ne => ⟨?_, rfl⟩) ?_,
      (Shrinks.doItemUnlink s p).table acc.table, ?_⟩
    · exact entry_congr next (doItemUnlink_heap_of_ne s ne)
    · have out : entry (doItemUnlink s p) p = (entry s p).unroot := by
        simp [doItemUnlink, linked, doItemRemove, entry, Entry.unroot, Entry.release,
          State.modify]
      rw [out]
      exact (acc.exact p).unroot pos linked
    · intro q marked
      have ne : q ≠ p := by
        rintro rfl
        simp [doItemUnlink, linked, doItemRemove, State.modify] at marked
      rw [doItemUnlink_heap_of_ne s ne] at marked ⊢
      have found := acc.listed q marked
      -- Two linked items have different keys.
      have other : (s.heap q).key ≠ (s.heap p).key := by
        intro same
        rw [same, acc.listed p linked] at found
        exact ne (Option.some.inj found).symm
      simpa [doItemUnlink, linked, doItemRemove, other] using found

/-- A holder enters the item into the table. -/
protected theorem doItemLink (acc : Accounted held limit s) (pos : 0 < held p)
    (free : (s.heap p).linked = false) (absent : s.assoc (s.heap p).key = none)
    (room : held p < limit) : Accounted held limit (doItemLink s p) := by
  have lt := acc.lt_of_held pos
  refine ⟨acc.exact.change p (fun q ne => ⟨?_, rfl⟩) ?_, (Links.doItemLink s lt).table acc.table,
    ?_⟩
  · exact entry_congr rfl (doItemLink_heap_of_ne s ne)
  · have entered : entry (doItemLink s p) p = (entry s p).root := by
      simp only [doItemLink, entry, State.modify, Entry.root, Entry.acquire, Function.update_self,
        itemSetCas_freed]
    rw [entered]
    exact (acc.exact p).root pos free room
  · intro q marked
    by_cases same : q = p
    · subst q
      simp [doItemLink]
    rw [doItemLink_heap_of_ne s same] at marked ⊢
    have found := acc.listed q marked
    have other : (s.heap q).key ≠ (s.heap p).key := by
      intro equal
      rw [equal, absent] at found
      cases found
    simpa [doItemLink, other] using found

/-- A new item is in the hands of whoever asked for it. -/
protected theorem doItemAlloc (acc : Accounted held limit s) {flags exptime nbytes : Nat}
    {alloc : ItemAlloc} (ran : doItemAlloc s key flags exptime nbytes alloc = (some p, s')) :
    p = s.next ∧ Accounted (more held p) limit s' ∧ (s'.heap p).linked = false ∧
      (s'.heap p).key = key ∧ s'.assoc = s.assoc ∧ s.next ≤ s'.next ∧
      ∀ q, q ≠ p → s'.heap q = s.heap q := by
  obtain ⟨-, left, -, rfl, rfl⟩ := doItemAlloc_made ran
  have old : ∀ q, q ≠ s.next → Function.update s.heap s.next
      (newItem s key flags exptime nbytes left) q = s.heap q := by
    intro q ne
    simp [ne]
  refine ⟨rfl, ⟨acc.exact.change s.next (fun q ne => ⟨?_, more_of_ne held ne⟩) ?_, ?_, ?_⟩,
    by simp [newItem], by simp [newItem], rfl, Nat.le_succ _, old⟩
  · have older : q < s.next + 1 ↔ q < s.next :=
      ⟨fun lt => Nat.lt_of_le_of_ne (Nat.lt_succ_iff.mp lt) ne, Nat.lt_succ_of_lt⟩
    simp only [entry, old q ne, older]
  · have fresh : entry { s with
        heap := Function.update s.heap s.next (newItem s key flags exptime nbytes left)
        next := s.next + 1 } s.next = Entry.created := by
      simp [entry, newItem, Entry.created]
    rw [more_self, acc.held_next, fresh]
    exact Entry.Exact.created
  · exact (Shrinks.fresh s _).table acc.table
  · intro q marked
    have ne : q ≠ s.next := by
      rintro rfl
      simp [newItem] at marked
    simp only [old q ne] at marked ⊢
    exact acc.listed q marked

/-- Whoever visits a linked item takes a reference first. -/
theorem visit (acc : Accounted held limit s) (linked : (s.heap p).linked = true)
    (room : held p + 2 ≤ limit) :
    Settled (more held p) limit s (refcountIncr s p) ∧
      ((refcountIncr s p).heap p).linked = true := by
  refine ⟨⟨acc.refcountIncr (acc.lt_of_linked linked) (.inl linked) room,
    LeavesFree.modify (.inl linked) _⟩, ?_⟩
  rw [refcountIncr, State.modify_heap_self]
  exact linked

/-- A lookup that hits: the caller holds the item from now on. -/
theorem doItemGet_hit (acc : Accounted held limit s) {bump : Bool} (room : ∀ q, held q + 2 ≤ limit)
    (ran : doItemGet s key bump = (some p, s')) :
    Settled (more held p) limit s s' ∧ (s'.heap p).linked = true ∧ (s'.heap p).key = key := by
  obtain ⟨found, alive⟩ := doItemGet_some (by rw [ran])
  obtain ⟨⟨taken, spared⟩, linked⟩ := acc.visit (acc.table.linked key p found) (room p)
  have here : ((refcountIncr s p).heap p).linked = true ∧
      ((refcountIncr s p).heap p).key = key := by
    refine ⟨linked, ?_⟩
    rw [refcountIncr, State.modify_heap_self]
    exact acc.table.key key p found
  simp only [doItemGet, found, alive, Bool.false_eq_true, if_false] at ran
  cases bump with
  | false =>
    obtain rfl := (Prod.mk.inj ran).2
    exact ⟨⟨taken, spared⟩, here⟩
  | true =>
    obtain rfl := (Prod.mk.inj ran).2
    refine ⟨⟨taken.modify_same p ⟨rfl, rfl, rfl, rfl, rfl⟩,
      spared.trans (LeavesFree.modify (.inl here.1) _)⟩, ?_⟩
    rw [State.modify_heap_self]
    exact here

/-- A lookup that misses: there is no item under the key any more. -/
theorem doItemGet_miss (acc : Accounted held limit s) {bump : Bool}
    (room : ∀ q, held q + 2 ≤ limit) (ran : doItemGet s key bump = (none, s')) :
    Settled held limit s s' ∧ s'.assoc key = none := by
  cases found : s.assoc key with
  | none =>
    simp only [doItemGet, found] at ran
    obtain rfl := (Prod.mk.inj ran).2
    exact ⟨⟨acc, LeavesFree.refl _ s⟩, found⟩
  | some p =>
    obtain ⟨⟨taken, spared⟩, linked⟩ := acc.visit (acc.table.linked key p found) (room p)
    have here : ((refcountIncr s p).heap p).key = key := by
      rw [refcountIncr, State.modify_heap_self]
      exact acc.table.key key p found
    simp only [doItemGet, found] at ran
    split at ran
    · -- dead
      obtain rfl := (Prod.mk.inj ran).2
      have out := taken.doItemUnlink (p := p) (by rw [more_self]; exact Nat.succ_pos _)
      have spares : LeavesFree (· = p) (refcountIncr s p) _ :=
        (LeavesFree.doItemUnlink (.inl linked)).trans (LeavesFree.doItemRemove (.inr rfl))
      exact ⟨⟨out.doItemRemove, spared.trans (spares.weaken fun q _ same =>
        .inr (same ▸ linked))⟩, by simp [doItemUnlink, linked, here, doItemRemove]⟩
    · split at ran
      · cases ran
      · cases ran

/-- An item takes the place of another one with its key. -/
protected theorem doItemReplace (acc : Accounted held limit s) (old new : ItemPtr)
    (holdsOld : 0 < held old) (holdsNew : 0 < held new) (linked : (s.heap old).linked = true)
    (free : (s.heap new).linked = false) (same : (s.heap new).key = (s.heap old).key)
    (room : held new < limit) : Accounted held limit (doItemReplace s old new) := by
  have ne : new ≠ old := by
    rintro rfl
    rw [free] at linked
    cases linked
  have out := acc.doItemUnlink holdsOld
  refine out.doItemLink holdsNew ?_ ?_ room
  · rw [doItemUnlink_heap_of_ne s ne, free]
  · rw [doItemUnlink_heap_of_ne s ne, same]
    simp [doItemUnlink, linked, doItemRemove]

/-! ## Storage commands -/

/-- The uploaded item takes the place of the one that a lookup has found. -/
theorem storeOver {old : ItemPtr} (acc : Accounted (more held old) limit s) (holds : 0 < held p)
    (linked : (s.heap old).linked = true) (free : (s.heap p).linked = false)
    (same : (s.heap p).key = (s.heap old).key) (room : held p + 2 ≤ limit) :
    Accounted held limit (Server.storeOver s p old).2 ∧
      LeavesFree (· = p) s (Server.storeOver s p old).2 := by
  have ne : p ≠ old := by
    rintro rfl
    rw [free] at linked
    cases linked
  have replaced := acc.doItemReplace old p (by rw [more_self]; exact Nat.succ_pos _)
    (by rwa [more_of_ne held ne]) linked free same (by rw [more_of_ne held ne]; omega)
  have spares : LeavesFree (fun q => q = p ∨ q = old) s (Server.storeOver s p old).2 :=
    (LeavesFree.doItemReplace (.inl linked) (.inl rfl)).trans
    (LeavesFree.doItemRemove (.inr (.inr rfl)))
  refine ⟨replaced.doItemRemove, spares.weaken ?_⟩
  rintro q - (rfl | rfl)
  · exact .inl rfl
  · exact .inr linked

/-- An item that was just made takes the place of the one that a lookup has found. -/
theorem replaceFresh {old new : ItemPtr} {flags exptime nbytes : Nat} {alloc : ItemAlloc}
    (acc : Accounted (more held old) limit s) (linked : (s.heap old).linked = true)
    (same : key = (s.heap old).key) (room : 2 ≤ limit)
    (ran : doItemAlloc s key flags exptime nbytes alloc = (some new, s')) (data : List UInt8) :
    Accounted (more (more held new) old) limit
        (doItemReplace (s'.modify new fun it => { it with data }) old new) ∧
      LeavesFree (fun q => q = old ∨ q = new) s
        (doItemReplace (s'.modify new fun it => { it with data }) old new) := by
  have holds : 0 < more held old old := by rw [more_self]; exact Nat.succ_pos _
  obtain ⟨rfl, acc₁, free, key, -, -, heap⟩ := acc.doItemAlloc ran
  have ne : old ≠ s.next := Nat.ne_of_lt (acc.lt_of_held holds)
  have acc₂ := acc₁.modify_same s.next (f := fun it => { it with data }) ⟨rfl, rfl, rfl, rfl, rfl⟩
  have oldHeap : (s'.modify s.next fun it => { it with data }).heap old = s.heap old := by
    rw [State.modify_heap_of_ne _ ne, heap old ne]
  rw [more_comm]
  refine ⟨acc₂.doItemReplace old s.next ?_ ?_ ?_ ?_ ?_ ?_, ?_⟩
  · exact Nat.lt_of_lt_of_le holds (le_more _ _ _)
  · rw [more_self]
    exact Nat.succ_pos _
  · rw [oldHeap, linked]
  · rw [State.modify_heap_self]
    exact free
  · rw [oldHeap, State.modify_heap_self]
    exact key.trans same
  · rw [more_self, acc.held_next]
    omega
  · exact ((LeavesFree.doItemAlloc ran).trans (LeavesFree.modify (.inr (.inr rfl)) _)).trans
      (LeavesFree.doItemReplace (.inr (.inl rfl)) (.inr rfl))

/-- A linked item and one that did not exist yet are nobody else's. -/
theorem spares_of_fresh {old new : ItemPtr} (linked : (s.heap old).linked = true)
    (fresh : s.next ≤ new) (spares : LeavesFree (fun q => q = old ∨ q = new) s s') :
    LeavesFree (fun _ => False) s s' := by
  refine spares.weaken ?_
  rintro q lt (rfl | rfl)
  · exact .inr linked
  · exact absurd lt (Nat.not_lt.mpr fresh)

/-- Append and prepend: a new item takes the place of the old one. -/
theorem storeConcat {old : ItemPtr} (acc : Accounted (more held old) limit s) (comm : Nread)
    (copy : CopyInput) (linked : (s.heap old).linked = true)
    (same : (s.heap p).key = (s.heap old).key) (room : 2 ≤ limit) :
    Settled held limit s (Server.storeConcat s p old comm copy).2 := by
  simp only [Server.storeConcat]
  rcases ran : doItemAlloc s (s.heap p).key (s.heap old).flags (s.heap old).exptime
      ((s.heap p).nbytes + (s.heap old).nbytes - 2) copy.alloc with ⟨_ | new, s₁⟩
  · obtain rfl := doItemAlloc_none ran
    exact ⟨acc.doItemRemove, LeavesFree.doItemRemove (.inl linked)⟩
  have fresh : s.next ≤ new := Nat.le_of_eq (acc.doItemAlloc ran).1.symm
  dsimp only
  cases copyData comm (s.heap old) (s.heap p) (s₁.heap new) copy with
  | none =>
    have acc₁ := (acc.doItemAlloc ran).2.1
    rw [more_comm] at acc₁
    exact ⟨acc₁.doItemRemove.doItemRemove, spares_of_fresh linked fresh
      (((LeavesFree.doItemAlloc ran).trans
        (LeavesFree.doItemRemove (.inr (.inl rfl)))).trans
        (LeavesFree.doItemRemove (.inr (.inr rfl))))⟩
  | some data =>
    obtain ⟨replaced, spares⟩ := acc.replaceFresh linked same room ran data
    exact ⟨replaced.doItemRemove.doItemRemove, spares_of_fresh linked fresh
      ((spares.trans (LeavesFree.doItemRemove (.inr (.inl rfl)))).trans
        (LeavesFree.doItemRemove (.inr (.inr rfl))))⟩

protected theorem doItemUpdate (acc : Accounted held limit s) (p : ItemPtr) :
    Accounted held limit (doItemUpdate s p) := by
  simp only [doItemUpdate]
  split
  · exact acc.modify_same p ⟨rfl, rfl, rfl, rfl, rfl⟩
  · exact acc

theorem storeExisting {old : ItemPtr} (acc : Accounted (more held old) limit s) (comm : Nread)
    (setStale : Bool) (copy : CopyInput) (holds : 0 < held p)
    (linked : (s.heap old).linked = true) (free : (s.heap p).linked = false)
    (same : (s.heap p).key = (s.heap old).key) (room : ∀ q, held q + 2 ≤ limit) :
    Accounted held limit (Server.storeExisting s p old comm setStale copy).2 ∧
      LeavesFree (· = p) s (Server.storeExisting s p old comm setStale copy).2 := by
  have release : Accounted held limit (doItemRemove s old) ∧
      LeavesFree (· = p) s (doItemRemove s old) :=
    ⟨acc.doItemRemove, LeavesFree.doItemRemove (.inl linked)⟩
  have stored := acc.storeOver holds linked free same (room p)
  have concat : Accounted held limit (Server.storeConcat s p old comm copy).2 ∧
      LeavesFree (· = p) s (Server.storeConcat s p old comm copy).2 := by
    have := acc.storeConcat comm copy linked same (Nat.le_trans (by omega) (room p))
    exact ⟨this.1, this.2.weaken fun q _ none => none.elim⟩
  cases comm with
  | add =>
    have updated : ((doItemUpdate s old).heap old).linked = true := by
      simp [doItemUpdate, linked]
    refine ⟨(acc.doItemUpdate old).doItemRemove,
      LeavesFree.trans ?_ (LeavesFree.doItemRemove (.inl updated))⟩
    rw [doItemUpdate, if_pos linked]
    exact LeavesFree.modify (.inl linked) _
  | set | replace => exact stored
  | cas =>
    simp only [Server.storeExisting]
    cases casResult s (s.heap p) (s.heap old) setStale with
    | none | badval => exact release
    | «match» => exact stored
    | stale =>
      have ne : old ≠ p := by
        rintro rfl
        rw [free] at linked
        cases linked
      have marked := acc.modify_same p (f := fun it =>
        { it with
          exptime := (s.heap old).exptime, stale := true
          tokenSent := it.tokenSent || (s.heap old).tokenSent }) ⟨rfl, rfl, rfl, rfl, rfl⟩
      have spares : ∀ f, LeavesFree (· = p) s (s.modify p f) := by
        intro f
        apply LeavesFree.modify
        exact .inr rfl
      have stored := marked.storeOver holds (by rw [State.modify_heap_of_ne _ ne, linked])
        (by rw [State.modify_heap_self]; exact free)
        (by rw [State.modify_heap_self, State.modify_heap_of_ne _ ne]; exact same) (room p)
      exact ⟨stored.1, (spares _).trans stored.2⟩
  | append | prepend =>
    simp only [Server.storeExisting]
    cases casResult s (s.heap p) (s.heap old) setStale with
    | none | «match» => exact concat
    | stale | badval => exact release

/-- A storage command leaves the uploaded item with its holder. -/
theorem doStoreItem (acc : Accounted held limit s) (comm : Nread) (setStale : Bool)
    (copy : CopyInput) (holds : 0 < held p) (free : (s.heap p).linked = false)
    (room : ∀ q, held q + 2 ≤ limit) :
    Accounted held limit (Server.doStoreItem s p comm setStale copy).2 ∧
      LeavesFree (· = p) s (Server.doStoreItem s p comm setStale copy).2 := by
  have lt := acc.lt_of_held holds
  simp only [Server.doStoreItem]
  rcases ran : doItemGet s (s.heap p).key false with ⟨_ | old, s₁⟩
  · obtain ⟨⟨acc₁, spares⟩, absent⟩ := acc.doItemGet_miss room ran
    have same := spares.heap p lt id free
    have spares' : LeavesFree (· = p) s s₁ := spares.weaken fun q _ none => none.elim
    have linked : Accounted held limit (doItemLink s₁ p) ∧
        LeavesFree (· = p) s (doItemLink s₁ p) := by
      have := room p
      refine ⟨acc₁.doItemLink holds (by rw [same]; exact free) (by rw [same]; exact absent)
        (by omega), spares'.trans (LeavesFree.doItemLink ?_)⟩
      rfl
    cases comm with
    | add | set => exact linked
    | cas | replace | append | prepend => exact ⟨acc₁, spares'⟩
  · obtain ⟨⟨acc₁, spares⟩, linked, key⟩ := acc.doItemGet_hit room ran
    have same := spares.heap p lt id free
    have stored := acc₁.storeExisting comm setStale copy holds linked
      (by rw [same]; exact free) (by rw [same, key]) room
    exact ⟨stored.1, (spares.weaken fun q _ none => none.elim).trans stored.2⟩

/-! ## Arithmetic and removal -/

theorem deltaInPlace (acc : Accounted held limit s) (p : ItemPtr) (text : List UInt8) :
    Accounted held limit (Server.deltaInPlace s p text) := by
  simp only [Server.deltaInPlace]
  refine Accounted.doItemUpdate ?_ p
  have written : ∀ casId, Accounted held limit (s.modify p fun it =>
      { itemSetCas s it casId with data := inPlaceData it text }) := by
    intro casId
    exact acc.modify_same p ((alike_itemSetCas s _ casId).withData _)
  exact (written _).of_same rfl rfl rfl

/-- A number that does not fit: a new item takes the place of the old one. -/
theorem deltaReplace (acc : Accounted (more held p) limit s) (text : List UInt8)
    (alloc : ItemAlloc) (linked : (s.heap p).linked = true) (room : 2 ≤ limit) :
    Settled held limit s (deltaRelease (Server.deltaReplace s p text alloc)).2 := by
  simp only [Server.deltaReplace]
  rcases ran : doItemAlloc s (s.heap p).key (s.heap p).flags (s.heap p).exptime (text.length + 2)
      alloc with ⟨_ | new, s₁⟩
  · obtain rfl := doItemAlloc_none ran
    exact ⟨acc.doItemRemove, LeavesFree.doItemRemove (.inl linked)⟩
  have fresh : s.next ≤ new := Nat.le_of_eq (acc.doItemAlloc ran).1.symm
  obtain ⟨replaced, spares⟩ := acc.replaceFresh linked rfl room ran (text ++ [13, 10])
  dsimp only
  generalize
    doItemReplace (s₁.modify new fun it => { it with data := text ++ [13, 10] }) p new =
    s₂ at replaced spares ⊢
  have renamed : Accounted (more (more held new) p) limit
      (s₂.modify p fun it => itemSetCas s₂ it (itemGetCas s₂ (s₂.heap new)))  :=
    replaced.modify_same p (alike_itemSetCas s₂ _ _)
  rw [more_comm] at renamed
  exact ⟨renamed.doItemRemove.doItemRemove, spares_of_fresh linked fresh
    (((spares.trans (LeavesFree.modify (.inr (.inl rfl)) _)).trans
      (LeavesFree.doItemRemove (.inr (.inr rfl)))).trans
        (LeavesFree.doItemRemove (.inr (.inl rfl))))⟩

/-- Increment and decrement leave nothing held. -/
theorem doAddDelta (acc : Accounted held limit s) (req : DeltaRequest)
    (room : ∀ q, held q + 2 ≤ limit) :
    Settled held limit s (Server.doAddDelta s req).2 := by
  rw [doAddDelta_eq]
  rcases ran : doItemGet s req.key false with ⟨_ | p, s₁⟩
  · exact (acc.doItemGet_miss room ran).1
  obtain ⟨⟨acc₁, spares⟩, linked, -⟩ := acc.doItemGet_hit room ran
  dsimp only
  cases deltaText s₁ req (s₁.heap p) with
  | error r => exact ⟨acc₁.doItemRemove, spares.trans (LeavesFree.doItemRemove (.inl linked))⟩
  | ok text =>
    dsimp only
    split
    · have written : LeavesFree (· = p) s₁
        (Server.doItemRemove (Server.deltaInPlace s₁ p text) p) := by
        refine LeavesFree.trans (LeavesFree.deltaInPlace ?_)
          (LeavesFree.doItemRemove (.inr ?_))
        · rfl
        · rfl
      exact ⟨(acc₁.deltaInPlace p text).doItemRemove,
        spares.trans (written.weaken fun q _ same => .inr (same ▸ linked))⟩
    · split
      · have replaced := acc₁.deltaReplace text req.alloc linked
          (Nat.le_trans (by omega) (room p))
        exact ⟨replaced.1, spares.trans replaced.2⟩
      -- The caller and the table make two.
      rename_i few
      have count := acc₁.refcount_eq
        (acc₁.lt_of_held (by rw [more_self]; exact Nat.succ_pos _))
      rw [linked, more_self] at count
      simp only [Bool.toNat_true] at count
      omega

/-- A holder of an item takes it out of the table and lets it go. -/
theorem drop (acc : Accounted (more held p) limit s) :
    Accounted held limit (doItemRemove (doItemUnlink s p) p) :=
  (acc.doItemUnlink (by rw [more_self]; exact Nat.succ_pos _)).doItemRemove

end Accounted

theorem LeavesFree.drop {own : ItemPtr → Prop} {s : State} {p : ItemPtr}
    (linked : (s.heap p).linked = true) :
    LeavesFree own s (Server.doItemRemove (Server.doItemUnlink s p) p) := by
  have spares : LeavesFree (fun q => own q ∨ q = p) s
      (Server.doItemRemove (Server.doItemUnlink s p) p) :=
    (LeavesFree.doItemUnlink (.inl linked)).trans (LeavesFree.doItemRemove (.inr (.inr rfl)))
  refine spares.weaken ?_
  rintro q - (mine | rfl)
  · exact .inl mine
  · exact .inr linked

namespace Settled

variable {held : ItemPtr → Nat} {limit : Nat} {s s₁ s₂ : State} {p : ItemPtr}

theorem after (next : Settled held limit s₁ s₂) (spares : LeavesFree (fun _ => False) s s₁) :
    Settled held limit s s₂ :=
  ⟨next.1, spares.trans next.2⟩

theorem doItemRemove (got : Settled (more held p) limit s s₁) (linked : (s₁.heap p).linked = true) :
    Settled held limit s (doItemRemove s₁ p) :=
  ⟨got.1.doItemRemove, got.2.trans (LeavesFree.doItemRemove (.inl linked))⟩

theorem drop (got : Settled (more held p) limit s s₁) (linked : (s₁.heap p).linked = true) :
    Settled held limit s (Server.doItemRemove (doItemUnlink s₁ p) p) :=
  ⟨got.1.drop, got.2.trans (LeavesFree.drop linked)⟩

end Settled

namespace Accounted

variable {held : ItemPtr → Nat} {limit : Nat} {s s' : State} {p : ItemPtr} {key : Key}

protected theorem setExptime (acc : Accounted held limit s) (p : ItemPtr) (touch : Option Nat) :
    Accounted held limit (setExptime s p touch) := by
  cases touch with
  | none => exact acc
  | some exptime =>
    exact acc.modify_same p (f := fun it => { it with exptime }) ⟨rfl, rfl, rfl, rfl, rfl⟩

protected theorem uploadItem (acc : Accounted held limit s) {req : StoreRequest} {data : List UInt8}
    (ran : uploadItem s req data = (some p, s')) :
    p = s.next ∧ Accounted (more held p) limit s' ∧ (s'.heap p).linked = false ∧
      LeavesFree (fun _ => False) s s' := by
  obtain ⟨s₁, alloc, rfl⟩ := uploadItem_alloc ran
  obtain ⟨rfl, acc₁, free, -⟩ := acc.doItemAlloc alloc
  have written : ∀ f, LeavesFree (· = s.next) s (s₁.modify s.next f) := by
    intro f
    refine (LeavesFree.doItemAlloc alloc).trans (LeavesFree.modify (.inr ?_) f)
    rfl
  refine ⟨rfl, acc₁.modify_same s.next ((alike_itemSetCas s₁ _ req.cas).withData _), ?_,
    (written _).weaken fun q lt same => absurd (same ▸ lt) (Nat.lt_irrefl _)⟩
  rw [State.modify_heap_self]
  exact (alike_itemSetCas s₁ _ req.cas).linked.trans free

end Accounted

end Kvsev.Server
