import Kvsev.Server.Acts

/-!
# The times of items

Linking an item and hits set its time. Only lookups lead to hits, and they drop what was
flushed. So every function leaves the time and the unique of a flushed item in the table
alone, whatever else it does to the table; `Ages` says so of a step. The LRU maintainer
is the exception: it does not look at what it bumps.
-/

namespace Kvsev.Server

open Function Stamped

/-- The items in the table exist, and none is from the future. -/
def Timely (s : State) : Prop :=
  ∀ key p, s.assoc key = some p → p < s.next ∧ (s.heap p).time ≤ s.currentTime

/-- A step that leaves flushed items alone, apart from the items in `t`, which it may
link. -/
structure Ages (t : ItemPtr → Prop) (s s' : State) : Prop extends SameHorizon s s' where
  next : s.next ≤ s'.next
  timely : Timely s → Timely s'
  table : ∀ key p, s'.assoc key = some p →
    (s.assoc key = some p ∧ (itemIsFlushed s (s.heap p) = true →
      (s'.heap p).time = (s.heap p).time ∧ (s'.heap p).cas = (s.heap p).cas)) ∨ t p ∨ s.next ≤ p

variable {t : ItemPtr → Prop} {s s' s'' : State} {p : ItemPtr} {key : Key}

theorem doItemUnlink_stamp (s : State) (p q : ItemPtr) :
    ((doItemUnlink s p).heap q).time = (s.heap q).time ∧
      ((doItemUnlink s p).heap q).cas = (s.heap q).cas := by
  unfold doItemUnlink
  split
  · by_cases same : q = p
    · subst same
      simp [doItemRemove, State.modify]
    · simp [doItemRemove, State.modify, same]
  · exact ⟨rfl, rfl⟩

theorem doItemLink_time (s : State) (p : ItemPtr) :
    ((doItemLink s p).heap p).time = s.currentTime := by
  simp only [doItemLink, State.modify_heap_self]

namespace Ages

theorem flushed (ages : Ages t s s') {it it' : Item} (time : it'.time = it.time)
    (cas : it'.cas = it.cas) : itemIsFlushed s' it' = itemIsFlushed s it :=
  itemIsFlushed_congr ages.toSameHorizon time cas

theorem refl (t : ItemPtr → Prop) (s : State) : Ages t s s :=
  ⟨⟨rfl, rfl, rfl, rfl⟩, Nat.le_refl _, id, fun _ _ found => .inl ⟨found, fun _ => ⟨rfl, rfl⟩⟩⟩

theorem trans (first : Ages t s s') (second : Ages t s' s'') : Ages t s s'' where
  toSameHorizon := first.toSameHorizon.trans second.toSameHorizon
  next := Nat.le_trans first.next second.next
  timely := fun timely => second.timely (first.timely timely)
  table := by
    intro key p found
    obtain ⟨found', kept'⟩ | linked | fresh := second.table key p found
    · obtain ⟨found, kept⟩ | linked | fresh := first.table key p found'
      · refine .inl ⟨found, fun flushed => ?_⟩
        obtain ⟨time, cas⟩ := kept flushed
        obtain ⟨time', cas'⟩ := kept' ((first.flushed time cas).trans flushed)
        exact ⟨time'.trans time, cas'.trans cas⟩
      · exact .inr (.inl linked)
      · exact .inr (.inr fresh)
    · exact .inr (.inl linked)
    · exact .inr (.inr (Nat.le_trans first.next fresh))

theorem weaken {t' : ItemPtr → Prop} (ages : Ages t s s') (within : ∀ p < s.next, t p → t' p) :
    Ages t' s s' := by
  refine { ages with table := fun key p found => ?_ }
  obtain kept | linked | fresh := ages.table key p found
  · exact .inl kept
  · obtain lt | fresh := Nat.lt_or_ge p s.next
    · exact .inr (.inl (within p lt linked))
    · exact .inr (.inr fresh)
  · exact .inr (.inr fresh)

/-- Changes of what is neither in the table nor about time. -/
theorem of_fields (same : SameHorizon s s') (heap : s'.heap = s.heap) (next : s'.next = s.next)
    (assoc : s'.assoc = s.assoc) : Ages t s s' := by
  refine ⟨same, Nat.le_of_eq next.symm, ?_, ?_⟩
  · intro timely key p found
    rw [assoc] at found
    rw [heap, next, same.currentTime]
    exact timely key p found
  · intro key p found
    rw [assoc] at found
    rw [heap]
    exact .inl ⟨found, fun _ => ⟨rfl, rfl⟩⟩

theorem of_heap (p : ItemPtr) (clock : SameHorizon s s') (next : s'.next = s.next)
    (assoc : s'.assoc = s.assoc) (others : ∀ q, q ≠ p → s'.heap q = s.heap q)
    (time : (s.heap p).time ≤ s.currentTime → (s'.heap p).time ≤ s.currentTime)
    (kept : itemIsFlushed s (s.heap p) = true →
      (s'.heap p).time = (s.heap p).time ∧ (s'.heap p).cas = (s.heap p).cas) : Ages t s s' := by
  refine ⟨clock, Nat.le_of_eq next.symm, fun timely key q found => ?_, fun key q found => ?_⟩
  · rw [assoc] at found
    rw [next, clock.currentTime]
    by_cases same : q = p
    · subst same
      exact (timely key q found).imp_right time
    · rw [others q same]
      exact timely key q found
  · rw [assoc] at found
    refine .inl ⟨found, fun flushed => ?_⟩
    by_cases same : q = p
    · subst same
      exact kept flushed
    · rw [others q same]
      exact ⟨rfl, rfl⟩

theorem change (p : ItemPtr) {f : Item → Item}
    (time : (s.heap p).time ≤ s.currentTime → (f (s.heap p)).time ≤ s.currentTime)
    (kept : itemIsFlushed s (s.heap p) = true →
      (f (s.heap p)).time = (s.heap p).time ∧ (f (s.heap p)).cas = (s.heap p).cas) :
    Ages t s (s.modify p f) := by
  refine of_heap p ⟨rfl, rfl, rfl, rfl⟩ rfl rfl (fun q => State.modify_heap_of_ne f) ?_ ?_
  · rw [State.modify_heap_self]
    exact time
  · rw [State.modify_heap_self]
    exact kept

theorem modify (p : ItemPtr) {f : Item → Item} (time : (f (s.heap p)).time = (s.heap p).time)
    (cas : (f (s.heap p)).cas = (s.heap p).cas) : Ages t s (s.modify p f) :=
  change p (fun le => time ▸ le) fun _ => ⟨time, cas⟩

theorem doItemRemove (s : State) (p : ItemPtr) : Ages t s (doItemRemove s p) := modify p rfl rfl

theorem doItemUnlink (s : State) (p : ItemPtr) : Ages t s (doItemUnlink s p) := by
  unfold Server.doItemUnlink
  split
  · have flagged : Ages t s (s.modify p fun it => { it with linked := false }) := modify p rfl rfl
    have before := (Shrinks.unlink s p).assoc
    have erased : Ages t (s.modify p fun it => { it with linked := false })
        { s.modify p fun it => { it with linked := false } with
          assoc := update s.assoc (s.heap p).key none } :=
      ⟨⟨rfl, rfl, rfl, rfl⟩, Nat.le_refl _, fun timely key q found =>
        timely key q (before key q found), fun key q found =>
        .inl ⟨before key q found, fun _ => ⟨rfl, rfl⟩⟩⟩
    exact (flagged.trans erased).trans (doItemRemove _ p)
  · exact refl t s

theorem doItemLink (here : t p) (lt : p < s.next) : Ages t s (doItemLink s p) := by
  have links := Links.doItemLink s lt
  have before {key : Key} {q : ItemPtr} (other : q ≠ p)
      (found : (Server.doItemLink s p).assoc key = some q) : s.assoc key = some q := by
    refine links.assoc key q ?_ found
    rintro rfl
    exact other (Option.some.inj (found.symm.trans links.here))
  have heap {q : ItemPtr} (other : q ≠ p) : (Server.doItemLink s p).heap q = s.heap q := by
    simp only [Server.doItemLink, State.modify_heap_of_ne _ other]
  refine ⟨⟨rfl, rfl, rfl, rfl⟩, Nat.le_refl _, fun timely key q found => ?_,
    fun key q found => ?_⟩
  · by_cases same : q = p
    · subst same
      exact ⟨lt, Nat.le_of_eq (doItemLink_time s q)⟩
    · rw [heap same]
      exact timely key q (before same found)
  · by_cases same : q = p
    · exact .inr (.inl (same ▸ here))
    · exact .inl ⟨before same found, fun _ => by rw [heap same]; exact ⟨rfl, rfl⟩⟩

theorem doItemReplace (here : t p) (lt : p < s.next) (old : ItemPtr) :
    Ages t s (doItemReplace s old p) := by
  have unlinked : Ages t s (Server.doItemUnlink s old) := doItemUnlink s old
  exact unlinked.trans (doItemLink here (Nat.lt_of_lt_of_le lt unlinked.next))

theorem written {flags exptime nbytes : Nat} {alloc : ItemAlloc}
    (ran : doItemAlloc s key flags exptime nbytes alloc = (some p, s')) (f : Item → Item) :
    Ages t s (s'.modify p f) := by
  obtain ⟨-, left, -, rfl, rfl⟩ := doItemAlloc_made ran
  have heap {q : ItemPtr} (other : q ≠ s.next) (it : Item) :
      (State.modify { s with heap := update s.heap s.next it, next := s.next + 1 }
        s.next f).heap q = s.heap q := by
    simp [State.modify, other]
  refine ⟨⟨rfl, rfl, rfl, rfl⟩, Nat.le_succ _, fun timely key q found => ?_,
    fun key q found => ?_⟩
  · obtain ⟨lt, time⟩ := timely key q found
    rw [heap (Nat.ne_of_lt lt)]
    exact ⟨Nat.lt_succ_of_lt lt, time⟩
  · obtain lt | fresh := Nat.lt_or_ge q s.next
    · refine .inl ⟨found, fun _ => ?_⟩
      rw [heap (Nat.ne_of_lt lt)]
      exact ⟨rfl, rfl⟩
    · exact .inr (.inr fresh)

/-! ## Functions -/

variable {u : Targets} {n : ItemPtr} {b : Bool}

theorem of_act (act : Act n u b s s') : Ages (since n u).linked s s' := by
  cases act with
  | fields same =>
    rw [same]
    exact of_fields ⟨rfl, rfl, rfl, rfl⟩ rfl rfl rfl
  | mark p key cas data time mark => exact modify p time cas
  | hit alive =>
    refine change _ (fun _ => Nat.le_refl _) fun flushed => ?_
    obtain alive | recent := alive
    · rw [alive] at flushed
      cases flushed
    · exact ⟨recent.symm, rfl⟩
  | unlink => exact doItemUnlink _ _
  | written ran f => exact written ran f
  | link own lt => exact doItemLink own lt
  | @renew _ p _ inside alive f casId clock keyed cas time mark =>
    refine of_heap p ⟨rfl, rfl, rfl, rfl⟩ rfl rfl (fun q other => State.modify_heap_of_ne _ other)
      (fun le => ?_) fun flushed => ?_
    · simp only [State.modify_heap_self]
      obtain time | time := time
      · rwa [time]
      · exact Nat.le_of_eq time
    · rw [alive] at flushed
      cases flushed
  | @number _ p new _ target own inside alive lt ne keyed =>
    have replaced : Ages (since n u).linked s (Server.doItemReplace s p new) :=
      doItemReplace own lt p
    have linked : (Server.doItemReplace s p new).heap p = (Server.doItemUnlink s p).heap p := by
      simp only [Server.doItemReplace, Server.doItemLink, State.modify_heap_of_ne _ ne]
    obtain ⟨time, cas⟩ := doItemUnlink_stamp s p p
    rw [← linked] at time cas
    refine replaced.trans (change p ?_ fun flushed => ?_)
    · rw [itemSetCas_time]
      exact id
    · rw [replaced.flushed time cas, alive] at flushed
      cases flushed

theorem since_of_acts (acts : Acts n u b s s') : Ages (since n u).linked s s' := by
  induction acts with
  | refl => exact refl _ _
  | quiet _ act ih | fresh _ act ih => exact ih.trans (of_act act)

/-- Functions leave flushed items alone. -/
theorem of_acts (acts : Acts s.next u b s s') : Ages u.linked s s' :=
  (since_of_acts acts).weaken (since_within s.next u).linked

end Ages

end Kvsev.Server
