import Kvsev.Server.Ages

/-!
# What clients see of the store

A key that has an item shows its value, its client flags, its expiry, its unique and the two
marks of the meta protocol. An item that has expired or was flushed is not shown, so a step
may take it out of the table without anybody noticing; `Quiet` steps do no more than that.
-/

namespace Kvsev.Meta

open Server

/-- What is shown of an item. -/
structure Face where
  value : List UInt8
  flags : Nat
  exptime : Nat
  cas : Nat
  stale : Bool
  tokenSent : Bool
  deriving DecidableEq, Repr

def face (it : Item) : Face := ⟨it.data, it.flags, it.exptime, it.cas, it.stale, it.tokenSent⟩

/-- What is shown of a key. -/
def look (s : State) (key : Key) : Option Face := (liveItem s key).map fun p => face (s.heap p)

/-- The table is in order: it holds existing items, under their keys, and none is from the
future. -/
structure Orderly (s : State) : Prop where
  linked : WellLinked s
  timely : Timely s

/-- A step that shows nothing. -/
structure Quiet (s s' : State) : Prop where
  table : ∀ key, s'.assoc key = s.assoc key ∨
    s'.assoc key = none ∧ ∃ p, s.assoc key = some p ∧ itemIsDead s (s.heap p) = true
  face : ∀ key p, s'.assoc key = some p → face (s'.heap p) = face (s.heap p)
  dead : ∀ key p, s'.assoc key = some p →
    itemIsDead s' (s'.heap p) = itemIsDead s (s.heap p)

variable {s s' s'' : State} {p : ItemPtr} {key : Key}

theorem itemIsDead_eq_false {it : Item} : itemIsDead s it = false ↔
    itemIsFlushed s it = false ∧ (it.exptime = 0 ∨ s.currentTime < it.exptime) := by
  simp only [itemIsDead, decide_eq_false_iff_not, not_or, Bool.not_eq_true]
  exact and_congr_right fun _ => by omega

/-- A lookup that finds nothing. -/
theorem doItemGet_of_missed (missed : liveItem s key = none) (bump : Bool) :
    ∃ heap assoc, doItemGet s key bump = (none, { s with heap, assoc }) := by
  rw [liveItem] at missed
  rw [doItemGet]
  cases here : s.assoc key with
  | none => exact ⟨s.heap, s.assoc, rfl⟩
  | some p =>
    simp only [here, ite_eq_left_iff, reduceCtorEq, imp_false, not_not] at missed
    simp only [missed, if_true, doItemUnlink]
    split
    · exact ⟨_, _, rfl⟩
    · exact ⟨_, _, rfl⟩

/-- It leaves the key without an item. -/
theorem assoc_of_missed (table : WellLinked s) (missed : liveItem s key = none) (bump : Bool) :
    (doItemGet s key bump).2.assoc key = none := by
  rw [liveItem] at missed
  rw [doItemGet]
  cases here : s.assoc key with
  | none => exact here
  | some p =>
    simp only [here, ite_eq_left_iff, reduceCtorEq, imp_false, not_not] at missed
    have linked := table.linked key p here
    have named := table.key key p here
    simp [missed, doItemUnlink, refcountIncr, linked, named, doItemRemove]

/-- A lookup that finds something. -/
theorem doItemGet_of_hit (live : liveItem s key = some p) (bump : Bool) :
    ∃ s', doItemGet s key bump = (some p, s') ∧ face (s'.heap p) = face (s.heap p) ∧
      s'.currentTime = s.currentTime ∧ s'.assoc = s.assoc ∧
      (s'.heap p).refcount = (s.heap p).refcount + 1 ∧
      ((s'.heap p).time = (s.heap p).time ∨ (s'.heap p).time = s.currentTime) := by
  obtain ⟨here, alive⟩ := liveItem_eq_some.mp live
  rw [doItemGet, here]
  simp only [alive, Bool.false_eq_true, if_false]
  cases bump with
  | true | false =>
    exact ⟨_, rfl, by simp [refcountIncr, face], rfl, rfl, by simp [refcountIncr],
      by simp [refcountIncr]⟩

/-- An item is dead or not by its times and its unique. -/
theorem itemIsDead_congr {it it' : Item} (same : SameHorizon s s') (time : it'.time = it.time)
    (cas : it'.cas = it.cas) (exptime : it'.exptime = it.exptime) :
    itemIsDead s' it' = itemIsDead s it := by
  rw [itemIsDead, itemIsDead, exptime, same.currentTime, itemIsFlushed_congr same time cas]

/-- The item that was linked, as it is shown. -/
theorem doItemLink_item (s : State) (p : ItemPtr) :
    ((doItemLink s p).heap p).time = s.currentTime ∧
      face ((doItemLink s p).heap p) =
        { face (s.heap p) with
          cas := if s.settings.useCas then u64 (s.casId + 1) else (s.heap p).cas } := by
  refine ⟨by simp [doItemLink], ?_⟩
  cases on : s.settings.useCas <;> simp [doItemLink, itemSetCas, face, on]

/-- An item that was not flushed is not if it is as old or younger. -/
theorem alive_of_younger {it it' : Item} (alive : itemIsDead s it = false)
    (past : it.time ≤ s.currentTime) (time : it'.time = it.time ∨ it'.time = s.currentTime)
    (cas : it'.cas = it.cas) (exptime : it'.exptime = it.exptime) : itemIsDead s it' = false := by
  have sameCas : itemGetCas s it' = itemGetCas s it := by rw [itemGetCas, itemGetCas, cas]
  rw [itemIsDead_eq_false, Bool.eq_false_iff, Ne, itemIsFlushed_iff] at alive ⊢
  rw [exptime, sameCas]
  refine ⟨?_, alive.2⟩
  rintro ⟨set, reached, old | cut⟩
  · exact alive.1 ⟨set, reached, .inl (by omega)⟩
  · exact alive.1 ⟨set, reached, .inr cut⟩

namespace Quiet

theorem refl (s : State) : Quiet s s :=
  ⟨fun _ => .inl rfl, fun _ _ _ => rfl, fun _ _ _ => rfl⟩

theorem assoc (quiet : Quiet s s') (here : s'.assoc key = some p) : s.assoc key = some p := by
  rcases quiet.table key with same | ⟨gone, -⟩
  · rw [← same, here]
  · rw [gone] at here
    cases here

theorem trans (first : Quiet s s') (second : Quiet s' s'') : Quiet s s'' where
  table key := by
    rcases second.table key with same | ⟨gone, p, here, dead⟩
    · rw [same]
      exact first.table key
    · exact .inr ⟨gone, p, first.assoc here, first.dead key p here ▸ dead⟩
  face key p here :=
    (second.face key p here).trans (first.face key p (second.assoc here))
  dead key p here :=
    (second.dead key p here).trans (first.dead key p (second.assoc here))

theorem look (quiet : Quiet s s') (key : Key) : look s' key = look s key := by
  rw [Meta.look, Meta.look, liveItem, liveItem]
  rcases quiet.table key with same | ⟨gone, p, here, dead⟩
  · rw [← same]
    cases here : s'.assoc key with
    | none => rfl
    | some p =>
      simp only [quiet.dead key p here]
      split
      · rfl
      · simp [quiet.face key p here]
  · rw [gone, here]
    simp [dead]

/-- Changes of an item that do not concern what is shown of it, or when. -/
theorem modify (p : ItemPtr) {f : Item → Item}
    (face : Meta.face (f (s.heap p)) = Meta.face (s.heap p))
    (time : (f (s.heap p)).time = (s.heap p).time) : Quiet s (s.modify p f) where
  table _ := .inl rfl
  face _ q _ := by
    by_cases same : q = p
    · subst same
      rw [State.modify_heap_self, face]
    · rw [State.modify_heap_of_ne _ same]
  dead _ q _ := by
    by_cases same : q = p
    · subst same
      rw [State.modify_heap_self]
      exact itemIsDead_congr ⟨rfl, rfl, rfl, rfl⟩ time (congrArg Face.cas face)
        (congrArg Face.exptime face)
    · rw [State.modify_heap_of_ne _ same]
      exact itemIsDead_congr ⟨rfl, rfl, rfl, rfl⟩ rfl rfl rfl

theorem refcountIncr (s : State) (p : ItemPtr) : Quiet s (refcountIncr s p) := modify p rfl rfl

theorem doItemRemove (s : State) (p : ItemPtr) : Quiet s (doItemRemove s p) := modify p rfl rfl

theorem doItemUnlink (table : WellLinked s) (here : s.assoc key = some p)
    (dead : itemIsDead s (s.heap p) = true) : Quiet s (doItemUnlink s p) := by
  rw [Server.doItemUnlink, if_pos (table.linked key p here), table.key key p here]
  have dropped : Quiet s { s with assoc := Function.update s.assoc key none } := by
    refine ⟨fun other => ?_, fun _ _ _ => rfl, fun _ _ _ => rfl⟩
    by_cases same : other = key
    · subst same
      exact .inr ⟨Function.update_self .., p, here, dead⟩
    · exact .inl (Function.update_of_ne same ..)
  have unmarked : Quiet { s with assoc := Function.update s.assoc key none }
      (State.modify { s with assoc := Function.update s.assoc key none } p
        fun it => { it with linked := false }) := modify p rfl rfl
  exact (dropped.trans unmarked).trans (Quiet.doItemRemove _ p)

theorem bump (timely : Timely s) (alive : itemIsDead s (s.heap p) = false) :
    Quiet s (s.modify p fun it => { it with time := s.currentTime }) where
  table _ := .inl rfl
  face _ q _ := by
    by_cases same : q = p
    · subst same
      rw [State.modify_heap_self]
      rfl
    · rw [State.modify_heap_of_ne _ same]
  dead key q here := by
    by_cases same : q = p
    · subst same
      rw [State.modify_heap_self, alive]
      exact alive_of_younger alive (timely key q here).2 (.inr rfl) rfl rfl
    · rw [State.modify_heap_of_ne _ same]
      exact itemIsDead_congr ⟨rfl, rfl, rfl, rfl⟩ rfl rfl rfl

/-- A lookup, also one that moves the time of the item. -/
theorem doItemGet (orderly : Orderly s) (key : Key) (bump : Bool) :
    Quiet s (doItemGet s key bump).2 := by
  rw [Server.doItemGet]
  cases here : s.assoc key with
  | none => exact .refl s
  | some p =>
    have taken := Quiet.refcountIncr s p
    dsimp only
    split
    · rename_i dead
      have table := (Shrinks.refcountIncr s p).table orderly.linked
      exact (taken.trans (Quiet.doItemUnlink table here ((taken.dead key p here).trans dead))).trans
        (Quiet.doItemRemove _ p)
    rename_i alive
    split
    · refine taken.trans (Quiet.bump ?_ ?_)
      · exact (Ages.of_act (.refcountIncr (n := 0) (t := .none) s p)).timely orderly.timely
      · rw [taken.dead key p here, Bool.eq_false_iff]
        exact alive
    · exact taken

end Quiet

/-! ## Steps on one key -/

/-- Keys show the same if nothing was done to their items. -/
theorem look_of_same (same : SameHorizon s s') (table : s'.assoc key = s.assoc key)
    (items : ∀ q, s.assoc key = some q → s'.heap q = s.heap q) : look s' key = look s key := by
  rw [look, look, liveItem, liveItem, table]
  cases here : s.assoc key with
  | none => rfl
  | some q =>
    simp only [items q here]
    rw [itemIsDead_congr same rfl rfl rfl]
    split
    · rfl
    · simp [items q here]

/-- A step on the item of one key, which keeps some other items. -/
structure Spares (kept : ItemPtr → Prop) (key : Key) (s s' : State) : Prop extends
    SameHorizon s s' where
  table : ∀ other, other ≠ key → s'.assoc other = s.assoc other
  items : ∀ q, kept q → s'.heap q = s.heap q

/-- The items of the other keys. -/
def Others (s : State) (key : Key) (q : ItemPtr) : Prop :=
  ∃ other, other ≠ key ∧ s.assoc other = some q

theorem not_others_of_here (table : WellLinked s) (here : s.assoc key = some p) :
    ¬Others s key p := by
  rintro ⟨other, ne, there⟩
  exact ne ((table.key other p there).symm.trans (table.key key p here))

theorem not_others_of_next (table : WellLinked s) (new : s.next ≤ p) : ¬Others s key p := by
  rintro ⟨other, -, there⟩
  exact Nat.not_lt_of_le new (table.old other p there)

namespace Spares

variable {kept : ItemPtr → Prop}

theorem refl (s : State) : Spares kept key s s :=
  ⟨⟨rfl, rfl, rfl, rfl⟩, fun _ _ => rfl, fun _ _ => rfl⟩

theorem trans (first : Spares kept key s s') (second : Spares kept key s' s'') :
    Spares kept key s s'' where
  toSameHorizon := first.toSameHorizon.trans second.toSameHorizon
  table other ne := (second.table other ne).trans (first.table other ne)
  items q here := (second.items q here).trans (first.items q here)

theorem modify (free : ¬kept p) (f : Item → Item) : Spares kept key s (s.modify p f) where
  toSameHorizon := ⟨rfl, rfl, rfl, rfl⟩
  table _ _ := rfl
  items _ here := State.modify_heap_of_ne f fun same => free (same ▸ here)

theorem doItemRemove (free : ¬kept p) : Spares kept key s (doItemRemove s p) := modify free _

theorem doItemUnlink (free : ¬kept p) (named : (s.heap p).key = key) :
    Spares kept key s (doItemUnlink s p) := by
  rw [Server.doItemUnlink]
  split
  · have unmarked : Spares kept key s (s.modify p fun it => { it with linked := false }) :=
      modify free _
    refine .trans ?_ (doItemRemove free)
    exact { unmarked with table := fun _ ne => Function.update_of_ne (named ▸ ne) .. }
  · exact .refl s

theorem doItemLink (free : ¬kept p) (named : (s.heap p).key = key) :
    Spares kept key s (doItemLink s p) where
  toSameHorizon := ⟨rfl, rfl, rfl, rfl⟩
  table _ ne := Function.update_of_ne (named ▸ ne) ..
  items q here := by
    have ne : q ≠ p := fun same => free (same ▸ here)
    simp [Server.doItemLink, State.modify, ne]

theorem doItemAlloc {flags exptime nbytes : Nat} {alloc : ItemAlloc} (free : ¬kept s.next)
    (ran : doItemAlloc s key flags exptime nbytes alloc = (some p, s')) :
    Spares kept key s s' := by
  rw [doItemAlloc_frame ran]
  exact { modify free fun _ => s'.heap s.next with }

theorem doItemGet (table : WellLinked s) (bump : Bool) :
    Spares (Others s key) key s (doItemGet s key bump).2 := by
  rw [Server.doItemGet]
  cases here : s.assoc key with
  | none => exact .refl s
  | some p =>
    have free := not_others_of_here table here
    have taken : Spares (Others s key) key s (refcountIncr s p) := modify free _
    have named : ((refcountIncr s p).heap p).key = key := by
      rw [refcountIncr, State.modify_heap_self]
      exact table.key key p here
    dsimp only
    split
    · exact (taken.trans (doItemUnlink free named)).trans (doItemRemove free)
    split
    · dsimp only
      exact taken.trans (modify free _)
    · exact taken

variable (spares : Spares (Others s key) key s s')

include spares

theorem look {other : Key} (ne : other ≠ key) : look s' other = look s other :=
  look_of_same spares.toSameHorizon (spares.table other ne) fun q there =>
    spares.items q ⟨other, ne, there⟩

theorem dead (it : Item) : itemIsDead s' it = itemIsDead s it :=
  itemIsDead_congr spares.toSameHorizon rfl rfl rfl

variable {q : ItemPtr} (here : s'.assoc key = some q)

include here

/-- All keys show the same exactly if the one that has an item does. -/
theorem look_iff (orderly : Orderly s) (live : liveItem s key = some p)
    (time : (s'.heap q).time = (s.heap p).time ∨ (s'.heap q).time = s.currentTime) :
    (∀ other, Meta.look s' other = Meta.look s other) ↔ face (s'.heap q) = face (s.heap p) := by
  have shown : Meta.look s key = some (face (s.heap p)) := by
    rw [Meta.look, live]
    rfl
  constructor
  · intro same
    have same := same key
    rw [shown, Meta.look, liveItem, here] at same
    dsimp only at same
    split at same
    · cases same
    · exact Option.some.inj same
  · intro same other
    by_cases ne : other = key
    · obtain ⟨there, alive⟩ := liveItem_eq_some.mp live
      have alive' : itemIsDead s' (s'.heap q) = false := by
        rw [spares.dead]
        exact alive_of_younger alive (orderly.timely key p there).2 time
          (congrArg Face.cas same) (congrArg Face.exptime same)
      rw [ne, shown, Meta.look, liveItem_eq_some.mpr ⟨here, alive'⟩]
      exact congrArg some same
    · exact spares.look ne

/-- All keys show the same exactly if the one that has got an item does not show it. -/
theorem look_iff_of_missed (missed : liveItem s key = none) :
    (∀ other, Meta.look s' other = Meta.look s other) ↔ itemIsDead s (s'.heap q) = true := by
  have shown : Meta.look s key = none := by
    rw [Meta.look, missed]
    rfl
  have after : Meta.look s' key = none ↔ itemIsDead s (s'.heap q) = true := by
    rw [Meta.look, liveItem, here, ← spares.dead]
    dsimp only
    split
    · simp [*]
    · simp [*]
  constructor
  · intro same
    exact after.mp ((same key).trans shown)
  · intro dead other
    by_cases ne : other = key
    · rw [ne, shown]
      exact after.mpr dead
    · exact spares.look ne

end Spares

/-! ## Small stores -/

/-- A store with one item, which was the last to get a unique. -/
def single (it : Item) : State :=
  { State.init defaultSettings with
    heap := fun _ => it
    next := 1
    casId := it.cas
    assoc := fun key => if key = it.key then some 0 else none }

theorem Orderly.single {it : Item} (linked : it.linked = true) (time : it.time = 0) :
    Orderly (single it) := by
  have table : ∀ key p, (Meta.single it).assoc key = some p → key = it.key ∧ p = 0 := by
    intro key p found
    simp only [Meta.single, Option.ite_none_right_eq_some, Option.some.injEq] at found
    exact ⟨found.1, found.2.symm⟩
  refine ⟨⟨?_, ?_, fun _ _ _ => linked⟩, ?_⟩
  · rintro key p found
    rw [(table key p found).2]
    exact Nat.one_pos
  · exact fun key p found => (table key p found).1.symm
  · rintro key p found
    rw [(table key p found).2]
    exact ⟨Nat.one_pos, time.le.trans (Nat.zero_le _)⟩

end Kvsev.Meta
