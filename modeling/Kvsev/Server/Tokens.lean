import Kvsev.Server.Acts

/-!
# Uniques as stamps

Linking an item, changing a number in place and marking an item as stale take a new
unique from `get_cas_id`. With that the hash table is a table of stamped objects, and
every function of the server renews it. Two things are recorded along the way: `incr`
gives the unique of the item it has linked to the item it has replaced, and only `md`
takes the token mark away.

What is said of uniques assumes that they are in use and that their counter does not
wrap around; the rest holds in any case.
-/

namespace Kvsev.Server

open Stamped

/-- The server as a table of stamped objects. -/
def itemStore (s : State) : Stamped.Store Key (List UInt8) where
  next := s.next
  clock := s.casId
  table := s.assoc
  key p := (s.heap p).key
  stamp p := (s.heap p).cas
  content p := (s.heap p).data
  mark p := (s.heap p).tokenSent

/-- There is another unique to give out. -/
structure Issues (s : State) : Prop where
  useCas : s.settings.useCas = true
  room : s.casId + 1 < 2 ^ 64

/-- A step of the server that renews the table. -/
structure Renewed (timed : Prop) (t : Targets) (s s' : State) : Prop where
  settings : s'.settings = s.settings
  renews : Renews timed t (itemStore s) (itemStore s')

/-- A step that takes no unique. -/
structure Quiet (timed : Prop) (t : Targets) (s s' : State) : Prop
    extends Renewed timed t s s' where
  casId : s'.casId = s.casId

abbrev Tokened (timed : Prop) (s : State) : Prop := WellFormed timed (itemStore s)

variable {timed : Prop} {t : Targets} {s s' s'' : State} {p n : ItemPtr} {key : Key} {b : Bool}

namespace Renewed

theorem wellFormed (ren : Renewed timed t s s') : Tokened timed s' := ren.renews.wellFormed

theorem trans (first : Renewed timed t s s') (second : Renewed timed t s' s'') :
    Renewed timed t s s'' :=
  ⟨second.settings.trans first.settings, first.renews.trans second.renews⟩

theorem andThen (first : Renewed timed t s s')
    (second : Tokened timed s' → Renewed timed t s' s'') :
    Renewed timed t s s'' :=
  first.trans (second first.wellFormed)

theorem weaken {t' : Targets} (ren : Renewed timed t s s') (within : t.Within s.next t') :
    Renewed timed t' s s' :=
  ⟨ren.settings, ren.renews.weaken within⟩

end Renewed

namespace Quiet

theorem refl (t : Targets) (wf : Tokened timed s) : Quiet timed t s s :=
  ⟨⟨rfl, Renews.refl t wf⟩, rfl⟩

theorem trans (first : Quiet timed t s s') (second : Quiet timed t s' s'') : Quiet timed t s s'' :=
  ⟨first.toRenewed.trans second.toRenewed, second.casId.trans first.casId⟩

theorem weaken {t' : Targets} (quiet : Quiet timed t s s') (within : t.Within s.next t') :
    Quiet timed t' s s' :=
  ⟨quiet.toRenewed.weaken within, quiet.casId⟩

/-- One step after another. -/
theorem andThen (first : Quiet timed t s s') (second : Tokened timed s' → Quiet timed t s' s'') :
    Quiet timed t s s'' :=
  first.trans (second first.wellFormed)

theorem renewed (first : Quiet timed t s s') (second : Tokened timed s' → Renewed timed t s' s'') :
    Renewed timed t s s'' :=
  first.toRenewed.trans (second first.wellFormed)

theorem issues (quiet : Quiet timed t s s') (issues : timed → Issues s) : timed → Issues s' :=
  fun time => ⟨quiet.settings ▸ (issues time).useCas, quiet.casId ▸ (issues time).room⟩

section

variable (wf : Tokened timed s)

include wf

/-- Changes of an item that are not about its key, its unique or its value. -/
theorem modify (p : ItemPtr) {f : Item → Item} (key : (f (s.heap p)).key = (s.heap p).key)
    (cas : (f (s.heap p)).cas = (s.heap p).cas) (data : (f (s.heap p)).data = (s.heap p).data)
    (mark : ¬t.cleared p → (s.heap p).tokenSent = true → (f (s.heap p)).tokenSent = true) :
    Quiet timed t s (s.modify p f) := by
  refine ⟨⟨rfl, Renews.of_subset wf (Nat.le_refl _) (fun _ => Nat.le_refl _)
    (fun _ _ found => found) ?_ ?_⟩, rfl⟩
  · intro q _
    by_cases same : q = p
    · subst same
      simp only [itemStore, State.modify_heap_self]
      exact ⟨key, cas, data⟩
    · simp [itemStore, State.modify_heap_of_ne f same]
  · intro q _ target marked
    by_cases same : q = p
    · subst same
      simp only [itemStore, State.modify_heap_self]
      exact mark target marked
    · simp only [itemStore, State.modify_heap_of_ne f same]
      exact marked

/-- Changes of what is not in the table. -/
theorem of_fields (settings : s'.settings = s.settings)
    (heap : s'.heap = s.heap) (next : s'.next = s.next) (assoc : s'.assoc = s.assoc)
    (casId : s'.casId = s.casId) : Quiet timed t s s' := by
  have same : itemStore s' = itemStore s := by
    simp only [itemStore, heap, next, assoc, casId]
  exact ⟨⟨settings, by rw [same]; exact Renews.refl t wf⟩, casId⟩

theorem doItemRemove (p : ItemPtr) : Quiet timed t s (doItemRemove s p) :=
  modify wf p rfl rfl rfl fun _ marked => marked

theorem doItemUpdate (p : ItemPtr) : Quiet timed t s (doItemUpdate s p) := by
  unfold Server.doItemUpdate
  split
  · exact modify wf p rfl rfl rfl fun _ marked => marked
  · exact refl t wf

theorem doItemUnlink (p : ItemPtr) : Quiet timed t s (doItemUnlink s p) := by
  unfold Server.doItemUnlink
  split
  · have flagged : Quiet timed t s (s.modify p fun it => { it with linked := false }) :=
      modify wf p rfl rfl rfl fun _ marked => marked
    have erased : Quiet timed t (s.modify p fun it => { it with linked := false })
        { s.modify p fun it => { it with linked := false } with
          assoc := Function.update s.assoc (s.heap p).key none } := by
      refine ⟨⟨rfl, Renews.of_subset flagged.wellFormed (Nat.le_refl _)
        (fun _ => Nat.le_refl _) ?_ (fun _ _ => ⟨rfl, rfl, rfl⟩) fun _ _ _ marked => marked⟩, rfl⟩
      exact (Shrinks.unlink s p).assoc
    exact (flagged.trans erased).andThen fun wf => doItemRemove wf p
  · exact refl t wf

theorem written {flags exptime nbytes : Nat} {alloc : ItemAlloc}
    (ran : doItemAlloc s key flags exptime nbytes alloc = (some p, s')) (f : Item → Item) :
    Quiet timed t s (s'.modify p f) := by
  obtain ⟨-, left, -, rfl, rfl⟩ := doItemAlloc_made ran
  refine ⟨⟨rfl, Renews.of_subset wf (Nat.le_succ _) (fun _ => Nat.le_refl _)
    (fun _ _ found => found) ?_ ?_⟩, rfl⟩
  · intro q lt
    have ne : q ≠ s.next := Nat.ne_of_lt lt
    simp [itemStore, State.modify, ne]
  · intro q lt _ marked
    have ne : q ≠ s.next := Nat.ne_of_lt lt
    simpa [itemStore, State.modify, ne] using marked

theorem lruMaintainerBump (p : ItemPtr) :
    Quiet timed t s (lruMaintainerBump s p) :=
  (doItemUpdate wf p).andThen fun wf => doItemRemove wf p

theorem of_act (act : Act n t false s s') : Quiet timed (since n t) s s' := by
  cases act with
  | fields same =>
    rw [same]
    exact of_fields wf rfl rfl rfl rfl rfl
  | mark p key cas data time mark => exact modify wf p key cas data mark
  | hit alive => exact modify wf _ rfl rfl rfl fun _ marked => marked
  | unlink => exact doItemUnlink wf _
  | written ran f => exact written wf ran f

end

theorem since_of_acts (wf : Tokened timed s) (acts : Acts n t false s s') :
    Quiet timed (since n t) s s' := by
  generalize none : false = b at acts
  induction acts with
  | refl => exact refl _ wf
  | quiet _ act ih => exact (ih wf none).andThen fun wf => of_act wf act
  | fresh => cases none

/-- Functions that take no unique. -/
theorem of_acts (wf : Tokened timed s) (acts : Acts s.next t false s s') : Quiet timed t s s' :=
  (since_of_acts wf acts).weaken (since_within s.next t)

end Quiet

/-! ## Steps that take a unique -/

namespace Renewed

theorem doItemLink_restamps (issues : timed → Issues s) (lt : p < s.next) :
    Restamps timed p (itemStore s) (itemStore (Server.doItemLink s p)) := by
  refine ⟨lt, rfl, fun time => ?_, rfl, ?_, fun time => ?_, ?_⟩
  · simp [itemStore, Server.doItemLink, (issues time).useCas, u64_of_lt (issues time).room]
  · simp [itemStore, Server.doItemLink]
  · simp [itemStore, Server.doItemLink, itemSetCas, (issues time).useCas,
      u64_of_lt (issues time).room]
  · intro q _ ne
    simp [itemStore, Server.doItemLink, State.modify_heap_of_ne _ ne]

theorem doItemLink (wf : Tokened timed s) (issues : timed → Issues s) (lt : p < s.next) :
    Renewed timed ⟨fun _ => False, fun _ => False, (· = p)⟩ s (doItemLink s p) := by
  refine ⟨rfl, (doItemLink_restamps issues lt).renews wf ?_ (.inr ?_)⟩
  · intro q _ _ marked
    by_cases same : q = p
    · subst same
      simpa [itemStore, Server.doItemLink] using marked
    · simpa [itemStore, Server.doItemLink, State.modify_heap_of_ne _ same] using marked
  · rfl

/-- A new unique for an item in the table, with whatever value. -/
theorem renew (wf : Tokened timed s) (inside : s.assoc (s.heap p).key = some p) {f : Item → Item}
    {casId : Nat} (clock : timed → casId = s.casId + 1)
    (key : (f (s.heap p)).key = (s.heap p).key) (cas : timed → (f (s.heap p)).cas = casId)
    (mark : ¬t.cleared p → (s.heap p).tokenSent = true → (f (s.heap p)).tokenSent = true) :
    Renewed timed t s { s.modify p f with casId } := by
  have renewed : Restamps timed p (itemStore s) (itemStore { s.modify p f with casId }) := by
    refine ⟨wf.old _ p inside, rfl, clock, ?_, ?_, fun time => ?_, ?_⟩
    · simp only [itemStore, State.modify_assoc]
      rw [← inside, Function.update_eq_self]
    · simpa [itemStore] using key
    · simpa [itemStore, clock time] using cas time
    · intro q _ ne
      simp [itemStore, State.modify_heap_of_ne _ ne]
  refine ⟨rfl, renewed.renews wf ?_ (.inl inside)⟩
  intro q _ target marked
  by_cases same : q = p
  · subst same
    simpa [itemStore] using mark target marked
  · simpa [itemStore, State.modify_heap_of_ne _ same] using marked

section

variable (wf : Tokened timed s)

include wf

theorem doItemReplace (issues : timed → Issues s) (old : ItemPtr) (lt : p < s.next) :
    Renewed timed ⟨fun _ => False, fun _ => False, (· = p)⟩ s (doItemReplace s old p) := by
  have unlinked : Quiet timed ⟨fun _ => False, fun _ => False, (· = p)⟩ s (doItemUnlink s old) :=
    Quiet.doItemUnlink wf old
  exact unlinked.renewed fun wf =>
    doItemLink wf (unlinked.issues issues) (Nat.lt_of_lt_of_le lt unlinked.renews.next)

/-- The item that is replaced gets the unique of the one that replaces it. -/
theorem replaceNumber (issues : timed → Issues s) (inside : s.assoc (s.heap p).key = some p)
    (new : ItemPtr) (lt : new < s.next) (ne : p ≠ new) (key : (s.heap new).key = (s.heap p).key) :
    Renewed timed ⟨(· = p), fun _ => False, (· = new)⟩ s
      ((Server.doItemReplace s p new).modify p fun it =>
        itemSetCas (Server.doItemReplace s p new) it
          (itemGetCas (Server.doItemReplace s p new)
            ((Server.doItemReplace s p new).heap new))) := by
  have unlinked : Quiet timed Targets.none s (doItemUnlink s p) := Quiet.doItemUnlink wf p
  have relinked := doItemLink_restamps (unlinked.issues issues)
    (Nat.lt_of_lt_of_le lt unlinked.renews.next)
  have replaced : Renewed timed ⟨(· = p), fun _ => False, (· = new)⟩ s
      (Server.doItemReplace s p new) :=
    (doItemReplace wf issues p lt).weaken
      ⟨fun _ _ none => none.elim, fun _ _ none => none.elim, fun _ _ target => target⟩
  have useCas : timed → (Server.doItemReplace s p new).settings.useCas = true :=
    fun time => replaced.settings ▸ (issues time).useCas
  have stamp : timed → ((Server.doItemReplace s p new).heap new).cas = s.casId + 1 :=
    fun time => unlinked.casId ▸ relinked.stamp time
  have clock : timed → (Server.doItemReplace s p new).casId = s.casId + 1 :=
    fun time => unlinked.casId ▸ relinked.clock time
  have keys : ((doItemUnlink s p).heap p).key = ((doItemUnlink s p).heap new).key := by
    have mine := unlinked.renews.key p (wf.old _ p inside)
    have other := unlinked.renews.key new lt
    simp only [itemStore] at mine other
    rw [mine, other, key]
  refine ⟨replaced.settings, replaced.renews.overwrite (p := p) rfl (fun time => ?_) ?_
    ⟨_, inside⟩ rfl rfl rfl ?_ ?_ ?_⟩
  · simp [itemStore, itemSetCas, itemGetCas, useCas time, stamp time, clock time]
  · intro k found
    rcases relinked.found found with ⟨-, same⟩ | ⟨other, before⟩
    · exact ne same
    · exact other ((unlinked.wellFormed.key k p before).symm.trans keys)
  · funext q
    by_cases same : q = p
    · subst same
      simp [itemStore]
    · simp [itemStore, State.modify_heap_of_ne _ same]
  · funext q
    by_cases same : q = p
    · subst same
      simp [itemStore]
    · simp [itemStore, State.modify_heap_of_ne _ same]
  · intro q other
    simp [itemStore, State.modify_heap_of_ne _ other]

theorem of_act (issues : timed → Issues s) (act : Act n t true s s') :
    Renewed timed (since n t) s s' := by
  cases act with
  | link own lt =>
    refine (doItemLink wf issues lt).weaken
      ⟨fun _ _ none => none.elim, fun _ _ none => none.elim, fun _ _ same => ?_⟩
    exact same ▸ own
  | renew inside alive clock keyed cas time mark =>
    obtain rfl := wf.key _ _ inside
    refine renew wf inside (fun time => ?_) keyed (fun time => cas (issues time).useCas)
      mark
    rw [clock (issues time).useCas, u64_of_lt (issues time).room]
  | number target own inside alive lt ne keyed =>
    obtain rfl := wf.key _ _ inside
    refine (replaceNumber wf issues inside _ lt ne keyed).weaken
      ⟨fun _ _ same => ?_, fun _ _ none => none.elim, fun _ _ same => ?_⟩
    · exact same ▸ target
    · exact same ▸ own

theorem since_of_acts (issues : timed → Issues s) (acts : Acts n t b s s') :
    Renewed timed (since n t) s s' := by
  induction acts with
  | refl => exact (Quiet.refl _ wf).toRenewed
  | quiet _ act ih =>
    exact (ih wf issues).andThen fun wf => (Quiet.of_act wf act).toRenewed
  | fresh before act =>
    have quiet := Quiet.since_of_acts wf before
    exact quiet.renewed fun wf => of_act wf (quiet.issues issues) act

theorem of_acts (issues : timed → Issues s) (acts : Acts s.next t b s s') :
    Renewed timed t s s' :=
  (since_of_acts wf issues acts).weaken (since_within s.next t)

end

theorem flushAll (wf : Tokened timed s) (issues : timed → Issues s) (newOldest : Nat) :
    Renewed timed t s (flushAll s newOldest) := by
  have ticked : ∀ oldestLive oldestCas casId, (timed → s.casId ≤ casId) → Renewed timed t s
      { s with oldestLive, oldestCas, casId } := fun _ _ _ le =>
    ⟨rfl, Renews.of_subset wf (Nat.le_refl _) le (fun _ _ found => found)
      (fun _ _ => ⟨rfl, rfl, rfl⟩) fun _ _ _ marked => marked⟩
  simp only [Server.flushAll]
  split
  · split
    · refine ticked _ _ _ fun time => ?_
      rw [u64_of_lt (issues time).room]
      exact Nat.le_succ _
    · exact ticked _ _ _ fun _ => Nat.le_refl _
  · exact ticked _ _ _ fun _ => Nat.le_refl _

end Renewed

end Kvsev.Server
