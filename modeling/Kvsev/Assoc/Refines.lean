import Kvsev.Assoc.Table
import Kvsev.Chained.Holds
import Kvsev.Transition.Run

/-!
# The hash table refines a finite map

The places of `Chained.Holds` are the buckets of the two tables. The home of a key
changes in two ways: an expansion turns every bucket into one of the old table, and
moving a bucket sends the keys of that bucket to the new table. Lookup, insertion
and deletion follow the home of their key, whatever it is at the moment.
-/

namespace Kvsev.Assoc

open Function Memory Transition

/-- A bucket of one of the two tables. -/
inductive Place where
  | old (i : Nat)
  | primary (i : Nat)
  deriving DecidableEq

variable {κ ι : Type}

/-- What is chained in a bucket. The old table counts only during an expansion. -/
def Table.places (t : Table ι) : Place → List ι
  | .old i => if t.expanding then t.old[i]?.getD [] else []
  | .primary i => t.primary[i]?.getD []

/-- The bucket a hash value belongs in. -/
def Table.place (t : Table ι) (hv : UInt32) : Place :=
  if t.inOld hv then .old (bucketOf hv (t.hashpower - 1)) else .primary (bucketOf hv t.hashpower)

/-- The sizes of the tables fit the variables. -/
structure Table.Sized (t : Table ι) : Prop where
  primary : t.primary.size = hashsize t.hashpower
  old : t.expanding = true → t.old.size = hashsize (t.hashpower - 1)
  bucket : t.expanding = true → t.expandBucket < hashsize (t.hashpower - 1)

namespace Table.Sized

variable {t : Table ι}

theorem inOld (sized : t.Sized) {hv : UInt32} (old : t.inOld hv = true) :
    t.expanding = true ∧ bucketOf hv (t.hashpower - 1) < t.old.size := by
  simp only [Table.inOld, Bool.and_eq_true] at old
  exact ⟨old.1, sized.old old.1 ▸ bucketOf_lt hv _⟩

/-- The bucket of a hash value can be read, and is what its place holds. -/
theorem chain (sized : t.Sized) (hv : UInt32) : t.chain hv = .ok (t.places (t.place hv)) := by
  by_cases old : t.inOld hv = true
  · obtain ⟨expanding, inRange⟩ := sized.inOld old
    simp [Table.chain, Table.place, Table.places, old, expanding, inRange]
  · have inRange := sized.primary ▸ bucketOf_lt hv t.hashpower
    simp [Table.chain, Table.place, Table.places, old, inRange]

theorem setChain (sized : t.Sized) (hv : UInt32) (items : List ι) :
    (t.setChain hv items).Sized := by
  by_cases old : t.inOld hv = true
  · rw [Table.setChain, if_pos old]
    exact ⟨sized.primary, fun expanding => by simpa using sized.old expanding, sized.bucket⟩
  · rw [Table.setChain, if_neg old]
    exact ⟨by simpa using sized.primary, sized.old, sized.bucket⟩

/-- Replacing the bucket of a hash value changes that place alone. -/
theorem places_setChain (sized : t.Sized) (hv : UInt32) (items : List ι) (p : Place) :
    (t.setChain hv items).places p = update t.places (t.place hv) items p := by
  by_cases old : t.inOld hv = true
  · obtain ⟨expanding, inRange⟩ := sized.inOld old
    rw [Table.setChain, Table.place, if_pos old, if_pos old]
    cases p with
    | primary i => rw [update_of_ne (by simp)]; rfl
    | old i =>
      by_cases here : i = bucketOf hv (t.hashpower - 1)
      · subst i
        rw [update_self]
        simp [Table.places, expanding, inRange]
      · rw [update_of_ne (by simpa using here)]
        simp [Table.places, Array.getElem?_setIfInBounds_ne (Ne.symm here)]
  · have inRange := sized.primary ▸ bucketOf_lt hv t.hashpower
    rw [Table.setChain, Table.place, if_neg old, if_neg old]
    cases p with
    | old i => rw [update_of_ne (by simp)]; rfl
    | primary i =>
      by_cases here : i = bucketOf hv t.hashpower
      · subst i
        rw [update_self]
        simp [Table.places, inRange]
      · rw [update_of_ne (by simpa using here)]
        simp [Table.places, Array.getElem?_setIfInBounds_ne (Ne.symm here)]

end Table.Sized

theorem Table.place_setChain (t : Table ι) (hv other : UInt32) (items : List ι) :
    (t.setChain hv items).place other = t.place other := by
  rw [Table.setChain]
  split <;> rfl

theorem emptyBuckets_getD (n i : Nat) : (emptyBuckets n : Array (List ι))[i]?.getD [] = [] := by
  rw [emptyBuckets, Array.getElem?_replicate]
  split <;> rfl

/-- The table holds the map. -/
structure Refines (key : ι → κ) (hash : κ → UInt32) (t : Table ι) (m : κ → Option ι) : Prop where
  sized : t.Sized
  holds : Chained.Holds key (fun k => t.place (hash k)) m t.places

namespace Refines

variable {key : ι → κ} {hash : κ → UInt32} {t : Table ι} {m : κ → Option ι}

/-- A new table makes every bucket one of the old table. -/
theorem expand (refines : Refines key hash t m) (quiet : t.expanding = false) (allocated : Bool) :
    Refines key hash (assocExpand t allocated) m := by
  obtain ⟨sized, holds⟩ := refines
  have home : ∀ hv, t.place hv = .primary (bucketOf hv t.hashpower) := by
    intro hv
    simp [Table.place, Table.inOld, quiet]
  cases allocated with
  | false =>
    refine ⟨⟨sized.primary, ?_, ?_⟩, ?_⟩
    · intro expanding
      exact absurd (quiet.symm.trans expanding) (by decide)
    · intro expanding
      exact absurd (quiet.symm.trans expanding) (by decide)
    · refine (holds.congr_home ?_).congr_chains ?_
      · intro it _
        rfl
      · intro p
        cases p with
        | old i => simp [assocExpand, Table.places, quiet]
        | primary i => rfl
  | true =>
    have home' : ∀ hv, (assocExpand t true).place hv = .old (bucketOf hv t.hashpower) := by
      intro hv
      simp [Table.place, Table.inOld, assocExpand]
    refine ⟨⟨?_, fun _ => sized.primary, fun _ => hashsize_pos _⟩, holds.keyed, ?_, ?_⟩
    · simp [assocExpand, emptyBuckets]
    · intro p it
      have old := holds.mem_iff
      simp only [home] at old
      simp only [home']
      cases p with
      | old i => simpa [assocExpand, Table.places] using old (.primary i) it
      | primary i => simp [assocExpand, Table.places, emptyBuckets_getD]
    · intro p
      cases p with
      | old i => exact holds.nodup (.primary i)
      | primary i => simp [assocExpand, Table.places, emptyBuckets_getD]

variable [DecidableEq κ]

section

variable (refines : Refines key hash t m)

include refines

/-- `assoc_find` is lookup in the map. -/
theorem find (k : κ) : assocFind key t k (hash k) = .ok (m k) := by
  rw [assocFind, refines.sized.chain, Exec.ok_bind, refines.holds.find k]
  rfl

theorem insert {it : ι} (absent : m (key it) = none) :
    ∃ t', assocInsert t it (hash (key it)) = .ok t' ∧
      Refines key hash t' (update m (key it) (some it)) := by
  obtain ⟨sized, holds⟩ := refines
  have ran : assocInsert t it (hash (key it)) =
      .ok (t.setChain (hash (key it)) (it :: t.places (t.place (hash (key it))))) := by
    rw [assocInsert, sized.chain, Exec.ok_bind, Exec.pure_eq_ok]
  refine ⟨_, ran, sized.setChain _ _, ?_⟩
  simp only [Table.place_setChain]
  exact (holds.insert absent).congr_chains (sized.places_setChain _ _)

/-- `assoc_delete` returns exactly where the key is in the map. -/
theorem delete {k : κ} (present : m k ≠ none) :
    ∃ t', assocDelete key t k (hash k) = .ok t' ∧
      Refines key hash t' (update m k none) := by
  obtain ⟨sized, holds⟩ := refines
  have found : ((t.places (t.place (hash k))).find? fun it => decide (k = key it)).isSome := by
    rw [holds.find k]
    exact Option.isSome_iff_ne_none.mpr present
  have ran : assocDelete key t k (hash k) = .ok (t.setChain (hash k)
      ((t.places (t.place (hash k))).eraseP fun it => decide (k = key it))) := by
    rw [assocDelete, sized.chain, Exec.ok_bind, Exec.assert_of found, Exec.ok_bind,
      Exec.pure_eq_ok]
  refine ⟨_, ran, sized.setChain _ _, ?_⟩
  simp only [Table.place_setChain]
  exact (holds.erase k).congr_chains (sized.places_setChain _ _)

theorem delete_absent {k : κ} (absent : m k = none) :
    assocDelete key t k (hash k) = .error .assertion := by
  obtain ⟨sized, holds⟩ := refines
  have missing := holds.find k
  rw [absent] at missing
  rw [assocDelete, sized.chain, Exec.ok_bind, missing]
  rfl

end

end Refines

/-! ## Moving a bucket -/

section

variable [DecidableEq κ] {key : ι → κ} {hash : κ → UInt32} {m : κ → Option ι}

/-- Buckets of a new table with other buckets beside them. -/
def beside (others : Nat → List ι) (primary : Array (List ι)) : Place → List ι
  | .old i => others i
  | .primary i => primary[i]?.getD []

/-- The loop over one bucket of the old table sends its keys to the new one. -/
theorem moveItems_spec (hash : κ → UInt32) (n b : Nat) (items : List ι) (others : Nat → List ι)
    (primary : Array (List ι)) (home : κ → Place) (size : primary.size = hashsize n)
    (here : others b = items) (holds : Chained.Holds key home m (beside others primary)) :
    ∃ primary' home', moveItems key hash n items primary = .ok primary' ∧
      primary'.size = hashsize n ∧
      Chained.Holds key home' m (beside (update others b []) primary') ∧
      ∀ k, home' k = home k ∨ home k = .old b ∧ home' k = .primary (bucketOf (hash k) n) := by
  induction items generalizing others primary home with
  | nil =>
    refine ⟨primary, home, rfl, size, ?_, fun k => .inl rfl⟩
    rwa [← here, update_eq_self]
  | cons it rest ih =>
    have inRange : bucketOf (hash (key it)) n < primary.size := by
      rw [size]
      exact bucketOf_lt _ n
    have atHome : home (key it) = .old b :=
      ((holds.mem_iff (.old b) it).mp (by simp [beside, here])).2
    let moved := primary.setIfInBounds (bucketOf (hash (key it)) n)
      (it :: primary[bucketOf (hash (key it)) n])
    have step := holds.move (show Place.old b ≠ .primary (bucketOf (hash (key it)) n) by simp)
      (show beside others primary (.old b) = it :: rest from here)
    have next : ∀ p, beside (update others b rest) moved p =
        update (update (beside others primary) (.old b) rest)
          (.primary (bucketOf (hash (key it)) n))
          (it :: beside others primary (.primary (bucketOf (hash (key it)) n))) p := by
      intro p
      cases p with
      | old i =>
        rw [update_of_ne (by simp)]
        by_cases same : i = b
        · subst i
          simp [beside]
        · rw [update_of_ne (by simpa using same)]
          simp [beside, same]
      | primary i =>
        by_cases same : i = bucketOf (hash (key it)) n
        · subst i
          rw [update_self]
          simp [beside, moved, inRange]
        · rw [update_of_ne (by simpa using same), update_of_ne (by simp)]
          simp [beside, moved, Array.getElem?_setIfInBounds_ne (Ne.symm same)]
    obtain ⟨primary', home', ran, size', holds', sent⟩ :=
      ih (update others b rest) moved _ (by simpa [moved] using size) (by simp)
        (step.congr_chains next)
    refine ⟨primary', home', ?_, size', ?_, ?_⟩
    · rw [moveItems, Array.getElem?_eq_getElem inRange, Exec.access_some, Exec.ok_bind]
      exact ran
    · rwa [update_idem] at holds'
    · intro k
      by_cases same : k = key it
      · subst k
        right
        have target := sent (key it)
        rw [update_self] at target
        refine ⟨atHome, ?_⟩
        rcases target with stayed | ⟨impossible, _⟩
        · exact stayed
        · cases impossible
      · have others' := sent k
        rwa [update_of_ne same] at others'

/-- Where a hash value belongs after a bucket was moved. -/
theorem place_moveBucket {t : Table ι} (sized : t.Sized) (expanding : t.expanding = true)
    (hv : UInt32) (primary old : Array (List ι)) :
    Table.place { t with
      primary
      old
      expandBucket := t.expandBucket + 1
      expanding := t.expandBucket + 1 ≠ hashsize (t.hashpower - 1) } hv =
      if t.place hv = .old t.expandBucket then .primary (bucketOf hv t.hashpower)
      else t.place hv := by
  have inRange := bucketOf_lt hv (t.hashpower - 1)
  have bucket := sized.bucket expanding
  by_cases waiting : t.expandBucket ≤ bucketOf hv (t.hashpower - 1)
  · by_cases here : bucketOf hv (t.hashpower - 1) = t.expandBucket
    · simp [Table.place, Table.inOld, expanding, here]
    · have later : t.expandBucket + 1 ≤ bucketOf hv (t.hashpower - 1) := by omega
      have more : t.expandBucket + 1 ≠ hashsize (t.hashpower - 1) := by omega
      simp [Table.place, Table.inOld, expanding, waiting, here, later, more]
  · have notLater : ¬ t.expandBucket + 1 ≤ bucketOf hv (t.hashpower - 1) := by omega
    simp [Table.place, Table.inOld, expanding, waiting, notLater]

/-- Moving a bucket keeps the map. It empties the bucket, and after the last one the
old table is empty. -/
theorem Refines.moveBucket {t : Table ι} (refines : Refines key hash t m)
    (expanding : t.expanding = true) :
    ∃ t', Assoc.moveBucket key hash t = .ok t' ∧ Refines key hash t' m ∧
      t'.hashpower = t.hashpower ∧ t'.expandBucket = t.expandBucket + 1 ∧
      (t'.expanding = true ↔ t'.expandBucket ≠ hashsize (t.hashpower - 1)) ∧
      (t'.expandBucket = hashsize (t.hashpower - 1) →
        ∀ b, b < hashsize (t.hashpower - 1) → t'.old[b]? = some []) := by
  obtain ⟨sized, holds⟩ := refines
  have bucket := sized.bucket expanding
  have oldSize := sized.old expanding
  have inRange : t.expandBucket < t.old.size := by rw [oldSize]; exact bucket
  let others : Nat → List ι := fun i => t.old[i]?.getD []
  have start : Chained.Holds key (fun k => t.place (hash k)) m (beside others t.primary) := by
    apply holds.congr_chains
    intro p
    cases p with
    | old i => simp [beside, others, Table.places, expanding]
    | primary i => rfl
  obtain ⟨primary', home', ran, size', moved, sent⟩ :=
    moveItems_spec hash t.hashpower t.expandBucket t.old[t.expandBucket] others t.primary
      _ sized.primary (by simp [others, inRange]) start
  -- the old table with the bucket emptied is what the loop lemma leaves beside the new one
  have cleared : ∀ i, (t.old.setIfInBounds t.expandBucket [])[i]?.getD [] =
      update others t.expandBucket [] i := by
    intro i
    by_cases same : i = t.expandBucket
    · subst i
      simp [inRange]
    · rw [update_of_ne same, Array.getElem?_setIfInBounds_ne (Ne.symm same)]
  have home : ∀ k, m k ≠ none → home' k =
      if t.place (hash k) = .old t.expandBucket then .primary (bucketOf (hash k) t.hashpower)
      else t.place (hash k) := by
    intro k bound
    obtain ⟨it, bound⟩ := Option.ne_none_iff_exists'.mp bound
    rcases sent k with stayed | ⟨here, gone⟩
    · rw [stayed, if_neg]
      intro here
      -- an item that stayed would still be in the emptied bucket
      obtain rfl := moved.keyed k it bound
      have mem := (moved.mem_iff (.old t.expandBucket) it).mpr ⟨bound, stayed.trans here⟩
      simp [beside] at mem
    · rw [if_pos here, gone]
  let t' : Table ι := { t with
    primary := primary'
    old := t.old.setIfInBounds t.expandBucket []
    expandBucket := t.expandBucket + 1
    expanding := t.expandBucket + 1 ≠ hashsize (t.hashpower - 1) }
  have result : Assoc.moveBucket key hash t = .ok t' := by
    simp only [Assoc.moveBucket, expanding, if_true, Array.getElem?_eq_getElem inRange,
      Exec.access_some, Exec.ok_bind, ran]
    rfl
  have finished : ∀ i, t'.expanding = false → update others t.expandBucket [] i = [] := by
    intro i done
    apply List.eq_nil_iff_forall_not_mem.mpr
    intro it mem
    obtain ⟨bound, there⟩ := (moved.mem_iff (.old i) it).mp mem
    rw [home (key it) (by rw [bound]; simp), ← place_moveBucket sized expanding _ primary'
      (t.old.setIfInBounds t.expandBucket [])] at there
    have new : t'.place (hash (key it)) = .primary (bucketOf (hash (key it)) t.hashpower) := by
      rw [Table.place, Table.inOld, done]
      rfl
    rw [show _ = Place.old i from there] at new
    cases new
  refine ⟨t', result, ⟨⟨size', ?_, ?_⟩, ?_⟩, rfl, rfl, ?_, ?_⟩
  · intro _
    simpa [t'] using oldSize
  · intro more
    have more : t.expandBucket + 1 ≠ hashsize (t.hashpower - 1) := by simpa [t'] using more
    change t.expandBucket + 1 < hashsize (t.hashpower - 1)
    omega
  · refine (moved.congr_home ?_).congr_chains ?_
    · intro it bound
      rw [home (key it) (by rw [bound]; simp)]
      exact place_moveBucket sized expanding _ _ _
    · intro p
      cases p with
      | primary i => rfl
      | old i =>
        by_cases more : t'.expanding = true
        · simp only [Table.places, more, if_true, beside]
          exact cleared i
        · have done : t'.expanding = false := by simpa using more
          simp only [Table.places, done, beside, finished i done]
          rfl
  · simp [t']
  · intro last b inTable
    have done : t'.expanding = false := by
      have last : t.expandBucket + 1 = hashsize (t.hashpower - 1) := last
      simp [t', last]
    have inOld : b < (t.old.setIfInBounds t.expandBucket []).size := by
      rw [Array.size_setIfInBounds, oldSize]
      exact inTable
    have empty := (cleared b).trans (finished b done)
    rw [Array.getElem?_eq_getElem inOld, Option.getD_some] at empty
    change (t.old.setIfInBounds t.expandBucket [])[b]? = some []
    rw [Array.getElem?_eq_getElem inOld, empty]

end

/-! ## Whole runs -/

theorem start_refines (key : ι → κ) (hash : κ → UInt32) (hashpower : Nat) :
    Refines key hash (start hashpower : Tracked κ ι).table (start hashpower).contents := by
  have quiet : (assocInit hashpower : Table ι).expanding = false := rfl
  refine ⟨⟨by simp [start, assocInit, emptyBuckets], nofun, nofun⟩, nofun, ?_, ?_⟩
  · intro p it
    cases p with
    | old i => simp [start, Table.places, quiet]
    | primary i => simp [start, Table.places, assocInit, emptyBuckets_getD]
  · intro p
    cases p with
    | old i => simp [start, Table.places, quiet]
    | primary i => simp [start, Table.places, assocInit, emptyBuckets_getD]

theorem Refines.step [DecidableEq κ] {key : ι → κ} {hash : κ → UInt32} {w : Tracked κ ι}
    (refines : Refines key hash w.table w.contents) {op : Op κ ι} (legal : Legal key w op) :
    (∃ w', Assoc.step key hash w op = .ok w' ∧ Refines key hash w'.table w'.contents) ∨
      ∃ k, op = .delete k ∧ w.contents k = none ∧ Assoc.step key hash w op = .error .assertion := by
  cases op with
  | insert it =>
    obtain ⟨t', ran, refines'⟩ := refines.insert legal
    refine .inl ⟨⟨t', update w.contents (key it) (some it)⟩, ?_, refines'⟩
    simp only [Assoc.step, ran, Exec.ok_bind, Exec.pure_eq_ok]
  | delete k =>
    by_cases absent : w.contents k = none
    · refine .inr ⟨k, rfl, absent, ?_⟩
      simp only [Assoc.step, refines.delete_absent absent, Exec.error_bind]
    · obtain ⟨t', ran, refines'⟩ := refines.delete absent
      refine .inl ⟨⟨t', update w.contents k none⟩, ?_, refines'⟩
      simp only [Assoc.step, ran, Exec.ok_bind, Exec.pure_eq_ok]
  | find k =>
    refine .inl ⟨w, ?_, refines⟩
    simp only [Assoc.step, refines.find k, Exec.ok_bind, Exec.pure_eq_ok]
  | expand allocated => exact .inl ⟨_, rfl, refines.expand legal allocated⟩
  | moveBucket =>
    by_cases expanding : w.table.expanding = true
    · obtain ⟨t', ran, refines', _⟩ := refines.moveBucket expanding
      refine .inl ⟨⟨t', w.contents⟩, ?_, refines'⟩
      simp only [Assoc.step, ran, Exec.ok_bind, Exec.pure_eq_ok]
    · refine .inl ⟨w, ?_, refines⟩
      simp [Assoc.step, Assoc.moveBucket, expanding]

section

variable [DecidableEq ι] (key : ι → κ) (hash : κ → UInt32)

/-- Every item of the map is once in its bucket of the new table and nowhere else
in it, and the old table is empty. -/
def Migrated (t : Table ι) (m : κ → Option ι) : Prop :=
  (∀ b, b < hashsize (t.hashpower - 1) → t.old[b]? = some []) ∧
    ∀ it, m (key it) = some it → ∀ b, b < hashsize t.hashpower →
      ∃ items, t.primary[b]? = some items ∧
        items.count it = if b = bucketOf (hash (key it)) t.hashpower then 1 else 0

theorem Refines.migrated {key : ι → κ} {hash : κ → UInt32} {t : Table ι} {m : κ → Option ι}
    (refines : Refines key hash t m) (quiet : t.expanding = false)
    (empty : ∀ b, b < hashsize (t.hashpower - 1) → t.old[b]? = some []) :
    Migrated key hash t m := by
  refine ⟨empty, ?_⟩
  intro it bound b inTable
  have inRange : b < t.primary.size := by rw [refines.sized.primary]; exact inTable
  have place : t.place (hash (key it)) = .primary (bucketOf (hash (key it)) t.hashpower) := by
    rw [Table.place, Table.inOld, quiet]
    rfl
  have count := refines.holds.count bound (.primary b)
  rw [place] at count
  refine ⟨t.primary[b], Array.getElem?_eq_getElem inRange, ?_⟩
  simpa [Table.places, inRange, eq_comm] using count

variable [DecidableEq κ]

/-- Lookup is lookup in the map; only a deletion of an absent key stops the process;
and a step that moves the last bucket leaves everything in the new table. -/
structure Correct (w : Tracked κ ι) : Prop where
  find : ∀ k, assocFind key w.table k (hash k) = .ok (w.contents k)
  returns : ∀ op, Legal key w op →
    (∃ w', step key hash w op = .ok w') ∨ ∃ k, op = .delete k ∧ w.contents k = none
  migrated : ∀ w', w.table.expanding = true → step key hash w .moveBucket = .ok w' →
    w'.table.expandBucket = hashsize (w.table.hashpower - 1) →
    w'.table.expanding = false ∧ Migrated key hash w'.table w'.contents

variable {key hash}

theorem Refines.correct {w : Tracked κ ι} (refines : Refines key hash w.table w.contents) :
    Correct key hash w := by
  refine ⟨refines.find, ?_, ?_⟩
  · intro op legal
    rcases refines.step legal with ⟨w', ran, _⟩ | ⟨k, same, absent, _⟩
    · exact .inl ⟨w', ran⟩
    · exact .inr ⟨k, same, absent⟩
  · intro w' expanding ran last
    obtain ⟨t', moved, refines', power, _, more, empty⟩ := refines.moveBucket expanding
    simp only [Assoc.step, moved, Exec.ok_bind, Exec.pure_eq_ok, Except.ok.injEq] at ran
    subst ran
    have done : t'.expanding = false := by
      cases flag : t'.expanding with
      | false => rfl
      | true => exact absurd last (more.mp flag)
    refine ⟨done, refines'.migrated done ?_⟩
    rw [power]
    exact empty last

/-- In every run of legal operations, from a table of any size and with any hash
function, the table refines the map of what was inserted and not deleted since. -/
theorem correct_throughout (key : ι → κ) (hash : κ → UInt32) (hashpower : Nat)
    (ops : List (Op κ ι)) (legal : Meets (step key hash) (Legal key) (start hashpower) ops) :
    Throughout (step key hash) (Correct key hash) (start hashpower) ops := by
  refine Throughout.mono (fun w refines => Refines.correct refines)
    (throughout_of_invariant ?_ (start_refines key hash hashpower) legal)
  intro w op w' refines permitted ran
  rcases refines.step permitted with ⟨w₁, ran₁, refines₁⟩ | ⟨_, _, _, failed⟩
  · rw [ran] at ran₁
    cases ran₁
    exact refines₁
  · rw [ran] at failed
    cases failed

end

/-- Two buckets become four while items come and go. -/
def sampleOps : List (Op Nat (Nat × Nat)) :=
  [.insert (1, 10), .expand true, .insert (2, 20), .moveBucket, .delete 1, .insert (1, 11),
    .moveBucket, .find 1]

theorem correct_throughout_sample :
    Throughout (step Prod.fst UInt32.ofNat) (Correct Prod.fst UInt32.ofNat) (start 1)
      sampleOps := by
  apply correct_throughout
  refine ⟨rfl, ?_⟩
  rintro w₁ ⟨⟩
  refine ⟨rfl, ?_⟩
  rintro w₂ ⟨⟩
  refine ⟨rfl, ?_⟩
  rintro w₃ ⟨⟩
  refine ⟨trivial, ?_⟩
  rintro w₄ ⟨⟩
  refine ⟨trivial, ?_⟩
  rintro w₅ ⟨⟩
  refine ⟨rfl, ?_⟩
  rintro w₆ ⟨⟩
  refine ⟨trivial, ?_⟩
  rintro w₇ ⟨⟩
  exact ⟨trivial, fun _ _ => trivial⟩

end Kvsev.Assoc
