import Kvsev.Server.References
import Kvsev.Stamped.Store

/-!
# What functions do to items, step by step

Every function that works on items is a sequence of a few kinds of steps: an item is
marked, hit, unlinked, made, linked, given a new unique, or replaced by a new number. At
most one of them takes a unique. What the steps keep, the functions keep; this is said once
here and used for the uniques and for the times of items.
-/

namespace Kvsev.Server

open Stamped

/-- The item was not flushed, or its time is as recent as a hit would make it. -/
def Hittable (s : State) (p : ItemPtr) : Prop :=
  itemIsFlushed s (s.heap p) = false ∨ (s.heap p).time = s.currentTime

/-- A step of a function. What it links is a target, or was made since the function began,
when there were the items below `n`. The flag says whether the step takes a unique. -/
inductive Act (n : ItemPtr) (t : Targets) : Bool → State → State → Prop
  /-- The response queue and the tree have nothing to do with items. -/
  | fields {s s' : State} (same : s' = { s with pending := s'.pending, merkle := s'.merkle }) :
    Act n t false s s'
  /-- Changes of an item that are not about its key, its unique, its value or its time. -/
  | mark {s : State} (p : ItemPtr) {f : Item → Item} (key : (f (s.heap p)).key = (s.heap p).key)
    (cas : (f (s.heap p)).cas = (s.heap p).cas) (data : (f (s.heap p)).data = (s.heap p).data)
    (time : (f (s.heap p)).time = (s.heap p).time)
    (mark : ¬t.cleared p → (s.heap p).tokenSent = true → (f (s.heap p)).tokenSent = true) :
    Act n t false s (s.modify p f)
  | hit {s : State} {p : ItemPtr} (alive : Hittable s p) :
    Act n t false s (s.modify p fun it => { it with time := s.currentTime })
  | unlink (s : State) (p : ItemPtr) : Act n t false s (doItemUnlink s p)
  /-- A new item, whatever is written to it. -/
  | written {s s' : State} {key : Key} {flags exptime nbytes : Nat} {alloc : ItemAlloc}
    {p : ItemPtr} (ran : doItemAlloc s key flags exptime nbytes alloc = (some p, s'))
    (f : Item → Item) : Act n t false s (s'.modify p f)
  | link {s : State} {p : ItemPtr} (own : t.linked p ∨ n ≤ p) (lt : p < s.next) :
    Act n t true s (doItemLink s p)
  /-- A new unique for an item in the table, with whatever value. -/
  | renew {s : State} {p : ItemPtr} {key : Key} (inside : s.assoc key = some p)
    (alive : itemIsFlushed s (s.heap p) = false) {f : Item → Item} {casId : Nat}
    (clock : s.settings.useCas = true → casId = u64 (s.casId + 1))
    (keyed : (f (s.heap p)).key = (s.heap p).key)
    (cas : s.settings.useCas = true → (f (s.heap p)).cas = casId)
    (time : (f (s.heap p)).time = (s.heap p).time ∨ (f (s.heap p)).time = s.currentTime)
    (mark : ¬t.cleared p → (s.heap p).tokenSent = true → (f (s.heap p)).tokenSent = true) :
    Act n t true s { s.modify p f with casId }
  /-- A new item comes in the place of another one, which gets its unique, too. -/
  | number {s : State} {p new : ItemPtr} {key : Key} (target : t.replaced p)
    (own : t.linked new ∨ n ≤ new) (inside : s.assoc key = some p)
    (alive : itemIsFlushed s (s.heap p) = false) (lt : new < s.next) (ne : p ≠ new)
    (keyed : (s.heap new).key = (s.heap p).key) :
    Act n t true s ((doItemReplace s p new).modify p fun it =>
      itemSetCas (doItemReplace s p new) it
        (itemGetCas (doItemReplace s p new) ((doItemReplace s p new).heap new)))

/-- Steps one after the other, of which at most one takes a unique, and none if the flag is
not set. -/
inductive Acts (n : ItemPtr) (t : Targets) : Bool → State → State → Prop
  | refl {b : Bool} (s : State) : Acts n t b s s
  | quiet {b : Bool} {s s' s'' : State} (before : Acts n t b s s')
    (act : Act n t false s' s'') : Acts n t b s s''
  | fresh {s s' s'' : State} (before : Acts n t false s s') (act : Act n t true s' s'') :
    Acts n t true s s''

variable {n : ItemPtr} {t : Targets} {b : Bool} {s s' s'' : State} {p : ItemPtr} {key : Key}

/-- What was made since there were the items below `n` may be linked, too. -/
def since (n : ItemPtr) (t : Targets) : Targets :=
  { t with linked := fun p => t.linked p ∨ n ≤ p }

theorem since_within (n : ItemPtr) (t : Targets) : (since n t).Within n t :=
  ⟨fun _ _ target => target, fun _ _ target => target, fun _ lt target =>
    target.resolve_right (Nat.not_le_of_lt lt)⟩

@[simp] theorem itemSetCas_tokenSent (s : State) (it : Item) (cas : Nat) :
    (itemSetCas s it cas).tokenSent = it.tokenSent := by rw [itemSetCas_eq]

@[simp] theorem itemSetCas_time (s : State) (it : Item) (cas : Nat) :
    (itemSetCas s it cas).time = it.time := by rw [itemSetCas_eq]

theorem itemSetCas_cas {it : Item} {cas : Nat} (used : s.settings.useCas = true) :
    (itemSetCas s it cas).cas = cas := by
  simp [itemSetCas, used]

theorem State.modify_modify (s : State) (p : ItemPtr) (f g : Item → Item) :
    (s.modify p f).modify p g = s.modify p fun it => g (f it) := by
  simp [State.modify]

@[simp] theorem doItemUnlink_next (s : State) (p : ItemPtr) : (doItemUnlink s p).next = s.next := by
  unfold doItemUnlink
  split <;> rfl

/-- A new item changes neither the table nor other items. -/
theorem doItemAlloc_frame {flags exptime nbytes : Nat} {alloc : ItemAlloc}
    (ran : doItemAlloc s key flags exptime nbytes alloc = (some p, s')) : s' =
      { s with heap := Function.update s.heap s.next (s'.heap s.next), next := s.next + 1 } := by
  obtain ⟨-, left, -, -, rfl⟩ := doItemAlloc_made ran
  simp

/-- An allocation that fails changes nothing. -/
theorem doItemAlloc_of_full {flags exptime nbytes : Nat} {alloc : ItemAlloc}
    (full : ¬(itemSizeOk s.settings key.length flags nbytes = true ∧ alloc.isSome = true)) :
    doItemAlloc s key flags exptime nbytes alloc = (none, s) := by
  unfold doItemAlloc
  split
  · rename_i ok
    cases alloc with
    | none => rfl
    | some left => exact absurd ⟨ok, rfl⟩ full
  · rfl

theorem itemIsFlushed_iff {it : Item} : itemIsFlushed s it = true ↔
    s.oldestLive ≠ 0 ∧ s.oldestLive ≤ s.currentTime ∧ (it.time ≤ s.oldestLive ∨
      s.oldestCas ≠ 0 ∧ itemGetCas s it ≠ 0 ∧ itemGetCas s it < s.oldestCas) := by
  unfold itemIsFlushed
  split
  · next idle =>
      simp only [Bool.false_eq_true, false_iff]
      omega
  · next effective =>
      simp only [decide_eq_true_eq]
      omega

/-- What tells which items are flushed is as before. -/
structure SameHorizon (s s' : State) : Prop where
  settings : s'.settings = s.settings
  currentTime : s'.currentTime = s.currentTime
  oldestLive : s'.oldestLive = s.oldestLive
  oldestCas : s'.oldestCas = s.oldestCas

theorem SameHorizon.trans (first : SameHorizon s s') (second : SameHorizon s' s'') :
    SameHorizon s s'' where
  settings := second.settings.trans first.settings
  currentTime := second.currentTime.trans first.currentTime
  oldestLive := second.oldestLive.trans first.oldestLive
  oldestCas := second.oldestCas.trans first.oldestCas

theorem itemIsFlushed_congr {it it' : Item} (same : SameHorizon s s') (time : it'.time = it.time)
    (cas : it'.cas = it.cas) : itemIsFlushed s' it' = itemIsFlushed s it := by
  rw [Bool.eq_iff_iff, itemIsFlushed_iff, itemIsFlushed_iff, same.currentTime, same.oldestLive,
    same.oldestCas, time, itemGetCas, itemGetCas, same.settings, cas]

theorem metaHit_stamp (s : State) (p : ItemPtr) (created : Bool) (flags : List MetaFlag)
    (input : MetaInput) :
    ((metaHit s p created flags { input with bump := false }).2.heap p).time = (s.heap p).time ∧
      ((metaHit s p created flags { input with bump := false }).2.heap p).cas =
        (s.heap p).cas := by
  obtain ⟨exptime, same⟩ := metaFields_item s created input.fetched (s.heap p) false flags
  simp [metaHit, same, bumpsLate]

theorem Act.next (act : Act n t b s s') : s.next ≤ s'.next := by
  cases act with
  | fields same =>
    rw [same]
  | unlink => exact Nat.le_of_eq (doItemUnlink_next s _).symm
  | written ran =>
    obtain ⟨-, _, -, -, next, -⟩ := doItemAlloc_some ran
    rw [State.modify_next, next]
    exact Nat.le_succ _
  | number => exact Nat.le_of_eq (doItemUnlink_next s _).symm
  | _ => exact Nat.le_refl _

namespace Acts

theorem next (acts : Acts n t b s s') : s.next ≤ s'.next := by
  induction acts with
  | refl => exact Nat.le_refl _
  | quiet _ act ih | fresh _ act ih => exact Nat.le_trans ih act.next

theorem upTo (acts : Acts n t false s s') : Acts n t b s s' := by
  generalize none : false = c at acts
  induction acts with
  | refl => exact .refl _
  | quiet _ act ih => exact (ih none).quiet act
  | fresh => cases none

theorem trans (first : Acts n t false s s') (second : Acts n t b s' s'') :
    Acts n t b s s'' := by
  induction second with
  | refl => exact first.upTo
  | quiet _ act ih => exact (ih first).quiet act
  | fresh _ act ih => exact (ih first).fresh act

theorem andThen (first : Acts n t b s s') (second : Acts n t false s' s'') :
    Acts n t b s s'' := by
  generalize none : false = c at second
  induction second with
  | refl => exact first
  | quiet _ act ih => exact (ih first none).quiet act
  | fresh => cases none

theorem one (act : Act n t false s s') : Acts n t b s s' := .quiet (.refl s) act

end Acts

/-! ## Functions on items -/

theorem Act.doItemRemove (s : State) (p : ItemPtr) : Act n t false s (doItemRemove s p) :=
  .mark p rfl rfl rfl rfl fun _ marked => marked

theorem Act.refcountIncr (s : State) (p : ItemPtr) : Act n t false s (refcountIncr s p) :=
  .mark p rfl rfl rfl rfl fun _ marked => marked

namespace Acts

theorem remove (acts : Acts n t b s s') (p : ItemPtr) :
    Acts n t b s (doItemRemove s' p) := acts.quiet (.doItemRemove s' p)

theorem setExptime (s : State) (p : ItemPtr) (touch : Option Nat) :
    Acts n t b s (setExptime s p touch) := by
  cases touch with
  | none => exact .refl s
  | some exptime =>
    exact .one (.mark p (f := fun it => { it with exptime }) rfl rfl rfl rfl fun _ marked => marked)

theorem doItemUpdate (alive : Hittable s p) : Acts n t b s (doItemUpdate s p) := by
  unfold Server.doItemUpdate
  split
  · exact .one (.hit alive)
  · exact .refl s

theorem doItemBump (bumps : List ItemPtr) (bump : Bump) (alive : Hittable s p) :
    Acts n t b s (doItemBump s bumps p bump).1 := by
  cases bump with
  | none => exact .refl s
  | time => exact .one (.hit alive)
  | queued => exact .one (.refcountIncr s p)
  | dropped =>
    exact (Acts.one (.refcountIncr s p)).quiet
      (.mark p (f := fun it => { it with refcount := it.refcount - 1 }) rfl rfl rfl rfl
        fun _ marked => marked)

/-- A lookup; what it finds is in the table and was not flushed. -/
theorem doItemGet {bump : Bool} {found : Option ItemPtr}
    (ran : doItemGet s key bump = (found, s')) :
    Acts n t b s s' ∧ ∀ p, found = some p → s.assoc key = some p ∧ s'.assoc key = some p ∧
      (bump = false → itemIsFlushed s' (s'.heap p) = false) := by
  unfold Server.doItemGet at ran
  cases here : s.assoc key with
  | none =>
    rw [here] at ran
    cases ran
    exact ⟨.refl s, fun p none => by cases none⟩
  | some p =>
    rw [here] at ran
    have taken : Acts n t b s (refcountIncr s p) := .one (.refcountIncr s p)
    dsimp only at ran
    split at ran
    · cases ran
      exact ⟨(taken.quiet (.unlink _ p)).remove p, fun p none => by cases none⟩
    · next alive =>
        have alive : itemIsFlushed (refcountIncr s p) ((refcountIncr s p).heap p) = false := by
          have same : itemIsFlushed (refcountIncr s p) ((refcountIncr s p).heap p) =
              itemIsFlushed s (s.heap p) :=
            itemIsFlushed_congr ⟨rfl, rfl, rfl, rfl⟩ (by simp [refcountIncr])
              (by simp [refcountIncr])
          rw [same, Bool.eq_false_iff]
          intro flushed
          exact alive (by simp [itemIsDead, flushed])
        split at ran
        · next bumps =>
            cases ran
            refine ⟨taken.quiet (.hit (.inl alive)), ?_⟩
            rintro q ⟨⟩
            exact ⟨rfl, here, fun never => by rw [never] at bumps; cases bumps⟩
        · cases ran
          refine ⟨taken, ?_⟩
          rintro q ⟨⟩
          exact ⟨rfl, here, fun _ => alive⟩

/-- Background threads, and lookups that drop. -/
theorem of_sheds (sheds : Sheds s s') : Acts n t b s s' := by
  refine sheds.rule (P := Acts n t b s) (fun step before => ?_) (.refl s)
  cases step with
  | count p => exact before.quiet (.mark p rfl rfl rfl rfl fun _ marked => marked)
  | unlink p => exact before.quiet (.unlink _ p)
  | lookup key bump => exact before.andThen (doItemGet rfl).1

theorem uploadItem {req : StoreRequest} {data : List UInt8} {found : Option ItemPtr}
    (ran : uploadItem s req data = (found, s')) : Acts n t b s s' := by
  unfold Server.uploadItem at ran
  rcases alloc : doItemAlloc s req.key req.flags req.exptime data.length req.alloc with
    ⟨_ | p, s₁⟩
  · rw [alloc] at ran
    cases ran
    rw [doItemAlloc_none alloc]
    exact .refl s
  · rw [alloc] at ran
    cases ran
    exact .one (.written alloc _)

/-- The marks of `mg`; it never takes one away, and hits are a step of their own. -/
theorem metaHit (s : State) (p : ItemPtr) (created : Bool) (flags : List MetaFlag)
    (input : MetaInput) :
    Acts n t b s (metaHit s p created flags { input with bump := false }).2 := by
  obtain ⟨exptime, same⟩ := metaFields_item s created input.fetched (s.heap p) false flags
  refine Acts.quiet (.one (.mark p ?_ ?_ ?_ ?_ fun _ marked => ?_)) (.fields rfl)
  · rw [same]
  · rw [same]
  · rw [same]
  · rw [same]
    simp [bumpsLate]
  · rw [same]
    simp [marked]

/-- What was not flushed before is not flushed after it. -/
theorem hittable_metaHit (alive : Hittable s p) (created : Bool) (flags : List MetaFlag)
    (input : MetaInput) :
    Hittable (Server.metaHit s p created flags { input with bump := false }).2 p := by
  obtain ⟨time, cas⟩ := metaHit_stamp s p created flags input
  exact alive.imp (itemIsFlushed_congr ⟨rfl, rfl, rfl, rfl⟩ time cas).trans time.trans

theorem metaRefuse (s : State) (p : ItemPtr) (created : Bool) (flags : List MetaFlag)
    (input : MetaInput) : Acts n t b s (metaRefuse s p created flags input).2 := by
  obtain ⟨exptime, same⟩ := metaFields_item s created input.fetched (s.heap p) false
    (flags.takeWhile fun flag => !flag.tooLong)
  simp only [Server.metaRefuse, same]
  exact (Acts.one (.mark p rfl rfl rfl rfl fun _ marked => marked)).remove p

/-! ## Storage -/

theorem doItemReplace (own : t.linked p ∨ n ≤ p) (lt : p < s.next) (old : ItemPtr) :
    Acts n t true s (doItemReplace s old p) :=
  .fresh (.one (.unlink s old)) (.link own (by rwa [doItemUnlink_next]))

theorem storeOver (own : t.linked p ∨ n ≤ p) (lt : p < s.next) (old : ItemPtr) :
    Acts n t true s (storeOver s p old).2 :=
  (doItemReplace own lt old).remove old

theorem lt_next_modify {flags exptime nbytes : Nat} {alloc : ItemAlloc}
    (ran : doItemAlloc s key flags exptime nbytes alloc = (some p, s')) (f : Item → Item) :
    p = s.next ∧ p < (s'.modify p f).next := by
  obtain ⟨-, left, -, rfl, next, -⟩ := doItemAlloc_some ran
  rw [State.modify_next, next]
  exact ⟨rfl, Nat.lt_succ_self _⟩

theorem storeConcat (le : n ≤ s.next) (p old : ItemPtr) (comm : Nread) (copy : CopyInput) :
    Acts n t true s (storeConcat s p old comm copy).2 := by
  simp only [Server.storeConcat]
  rcases alloc : doItemAlloc s (s.heap p).key (s.heap old).flags (s.heap old).exptime
      ((s.heap p).nbytes + (s.heap old).nbytes - 2) copy.alloc with ⟨_ | new, s₁⟩
  · dsimp only
    rw [doItemAlloc_none alloc]
    exact (Acts.refl s).remove old
  dsimp only
  cases copyData comm (s.heap old) (s.heap p) (s₁.heap new) copy with
  | none =>
    have made := Act.written (n := n) (t := t) alloc id
    have same : s₁.modify new id = s₁ := by simp [State.modify]
    rw [same] at made
    exact ((Acts.one made).remove old).remove new
  | some data =>
    obtain ⟨rfl, lt⟩ := lt_next_modify alloc fun it => { it with data }
    have replaced := (Acts.one (.written alloc fun it => { it with data })).trans
      (doItemReplace (t := t) (.inr le) lt old)
    exact (replaced.remove old).remove s.next

/-- A storage command for a key that has an item, which a lookup has found. -/
theorem storeExisting (own : t.linked p ∨ n ≤ p) (lt : p < s.next) (le : n ≤ s.next)
    {old : ItemPtr} (alive : itemIsFlushed s (s.heap old) = false) (comm : Nread)
    (setStale : Bool) (copy : CopyInput) :
    Acts n t true s (storeExisting s p old comm setStale copy).2 := by
  have release : Acts n t true s (doItemRemove s old) := (Acts.refl s).remove old
  have stored := storeOver own lt old
  have concat : Acts n t true s (Server.storeConcat s p old comm copy).2 :=
    storeConcat le p old comm copy
  simp only [Server.storeExisting]
  cases comm with
  | add => exact (doItemUpdate (.inl alive)).remove old
  | replace | set => exact stored
  | cas =>
    cases casResult s (s.heap p) (s.heap old) setStale with
    | «match» => exact stored
    | none | badval => exact release
    | stale =>
      have marked : Acts n t false s (s.modify p fun it =>
          { it with
            exptime := (s.heap old).exptime, stale := true
            tokenSent := it.tokenSent || (s.heap old).tokenSent }) :=
        .one (.mark p rfl rfl rfl rfl fun _ marked => by simp [marked])
      exact marked.trans (storeOver (s := s.modify p _) own lt old)
  | append | prepend =>
    cases casResult s (s.heap p) (s.heap old) setStale with
    | none | «match» => exact concat
    | stale | badval => exact release

theorem doStoreItem (own : t.linked p ∨ n ≤ p) (lt : p < s.next) (le : n ≤ s.next)
    (comm : Nread) (setStale : Bool) (copy : CopyInput) :
    Acts n t true s (doStoreItem s p comm setStale copy).2 := by
  simp only [Server.doStoreItem]
  rcases ran : Server.doItemGet s (s.heap p).key false with ⟨found, s₁⟩
  obtain ⟨got, alive⟩ := doItemGet (n := n) (t := t) (b := false) ran
  have lt₁ := Nat.lt_of_lt_of_le lt got.next
  cases found with
  | some old =>
    obtain ⟨-, -, alive⟩ := alive old rfl
    exact got.trans
      (storeExisting own lt₁ (Nat.le_trans le got.next) (alive rfl) comm setStale copy)
  | none =>
    have linked := got.fresh (.link own lt₁)
    cases comm with
    | add | set => exact linked
    | _ => exact got.upTo

/-! ## Numbers and stale items -/

theorem deltaInPlace (inside : s.assoc key = some p)
    (alive : itemIsFlushed s (s.heap p) = false) (text : List UInt8) :
    Acts n t true s (deltaInPlace s p text) := by
  simp only [Server.deltaInPlace]
  generalize clock : (if s.settings.useCas then u64 (s.casId + 1) else s.casId) = casId
  have clock : s.settings.useCas = true → casId = u64 (s.casId + 1) := by
    intro used
    rw [← clock, if_pos used]
  unfold Server.doItemUpdate
  split
  · have both := State.modify_modify s p (fun it =>
      { itemSetCas s it casId with data := inPlaceData it text }) fun it =>
        { it with time := s.currentTime }
    have renewed : Act n t true s { s.modify p (fun it => { itemSetCas s it casId with
        data := inPlaceData it text, time := s.currentTime }) with casId } :=
      .renew inside alive clock (by simp) itemSetCas_cas (.inr rfl) fun _ marked => by
        simpa using marked
    rw [← both] at renewed
    exact .fresh (.refl s) renewed
  · exact .fresh (.refl s) (.renew inside alive clock (by simp) itemSetCas_cas (.inl (by simp))
      fun _ marked => by simpa using marked)

theorem deltaReplace (replaced : t.replaced p) (le : n ≤ s.next) (inside : s.assoc key = some p)
    (alive : itemIsFlushed s (s.heap p) = false) (lt : p < s.next) (text : List UInt8)
    (alloc : ItemAlloc) : Acts n t true s (deltaRelease (deltaReplace s p text alloc)).2 := by
  simp only [Server.deltaReplace]
  rcases ran : doItemAlloc s (s.heap p).key (s.heap p).flags (s.heap p).exptime
      (text.length + 2) alloc with ⟨_ | new, s₁⟩
  · dsimp only
    rw [doItemAlloc_none ran]
    exact (Acts.refl s).remove p
  obtain ⟨rfl, newer⟩ := lt_next_modify ran fun it => { it with data := text ++ [13, 10] }
  obtain ⟨-, left, -, -, -, item⟩ := doItemAlloc_some ran
  have other : p ≠ s.next := Nat.ne_of_lt lt
  have frame := doItemAlloc_frame ran
  have made := Act.written (n := n) (t := t) ran fun it =>
    { it with data := text ++ [13, 10] }
  generalize s₁.heap s.next = it at frame item
  subst frame
  have here : (State.modify { s with
      heap := Function.update s.heap s.next it, next := s.next + 1 } s.next fun it =>
        { it with data := text ++ [13, 10] }).heap p = s.heap p := by
    simp [State.modify, other]
  have number := (Acts.one (b := false) made).fresh
    (.number replaced (.inr le) inside ?_ newer other ?_)
  · exact (number.remove s.next).remove p
  · rw [here]
    exact alive
  · rw [here]
    simp [State.modify, item, newItem]

/-- `incr` and `decr`; where there is nothing to change, no unique is taken. -/
theorem doAddDelta {req : DeltaRequest} (le : n ≤ s.next)
    (inside : ∀ q, s.assoc req.key = some q → t.replaced q ∧ q < s.next)
    (takes : b = true ∨ (doAddDelta s req).1 = .itemNotFound) :
    Acts n t b s (doAddDelta s req).2 := by
  rw [doAddDelta_eq] at takes ⊢
  rcases ran : Server.doItemGet s req.key false with ⟨_ | p, s₁⟩
  · exact (doItemGet ran).1
  obtain ⟨got, found⟩ := doItemGet (n := n) (t := t) (b := false) ran
  obtain ⟨before, here, alive⟩ := found p rfl
  obtain ⟨replaced, lt⟩ := inside p before
  refine got.trans ?_
  rw [ran] at takes
  dsimp only at takes ⊢
  cases text : deltaText s₁ req (s₁.heap p) with
  | error r => exact (Acts.refl s₁).remove p
  | ok text' =>
    rw [text] at takes
    dsimp only at takes ⊢
    split at takes
    · next fits =>
        rw [if_pos fits]
        obtain rfl | none := takes
        · exact (deltaInPlace here (alive rfl) text').remove p
        · cases none
    · next long =>
        rw [if_neg long]
        split at takes
        · next shared =>
            rw [if_pos shared]
            obtain rfl | none := takes
            · exact deltaReplace replaced (Nat.le_trans le got.next) here (alive rfl)
                (Nat.lt_of_lt_of_le lt got.next) text' req.alloc
            · simp only [Server.deltaReplace] at none
              split at none <;> cases none
        · next few =>
            rw [if_neg few]
            dsimp only
            split
            · exact (Acts.refl s₁).remove p
            · exact .refl s₁

theorem processMarithmeticCommand {req : DeltaRequest} (le : n ≤ s.next)
    (inside : ∀ q, s.assoc req.key = some q → t.replaced q ∧ q < s.next)
    (vivify : Option Vivify) : Acts n t true s (processMarithmeticCommand s req vivify) := by
  have delta : Acts n t true s (Server.doAddDelta s req).2 := doAddDelta le inside (.inl rfl)
  simp only [Server.processMarithmeticCommand]
  rcases ran : Server.doAddDelta s req with ⟨r, s₁⟩
  rw [ran] at delta
  cases vivify with
  | none => cases r <;> exact delta
  | some initial =>
    cases r with
    | itemNotFound =>
      have missed : Acts n t false s (Server.doAddDelta s req).2 :=
        doAddDelta le inside (.inr (by rw [ran]))
      rw [ran] at missed
      dsimp only
      rcases alloc : doItemAlloc s₁ req.key 0 0 (initial.text.length + 2) initial.alloc with
        ⟨_ | p, s₂⟩
      · dsimp only
        rw [doItemAlloc_none alloc]
        exact delta
      obtain ⟨rfl, lt⟩ := lt_next_modify alloc fun it =>
        { it with data := initial.text ++ [13, 10] }
      have made := missed.quiet (.written alloc fun it =>
        { it with data := initial.text ++ [13, 10] })
      have le₁ := Nat.le_trans le missed.next
      exact (made.trans (doStoreItem (.inr le₁) lt (Nat.le_trans le made.next) .add false
        initial.copy)).remove s₁.next
    | _ => exact delta

theorem markStale (inside : s.assoc key = some p) (alive : itemIsFlushed s (s.heap p) = false)
    (cleared : t.cleared p) (newTtl : Option Nat) : Acts n t true s (markStale s p newTtl) := by
  simp only [Server.markStale]
  cases newTtl <;> simp only [Server.setExptime, State.modify_modify]
  all_goals
    exact .fresh (.refl s) (.renew inside alive (fun used => if_pos used) (by simp)
      itemSetCas_cas (.inl (by simp)) fun kept => absurd cleared kept)

/-- `md`; only what it marks as stale loses the token mark. -/
theorem processMdeleteCommand (flags : MdeleteFlags)
    (cleared : ∀ q, flags.setStale = true → s.assoc key = some q → t.cleared q) :
    Acts n t true s (processMdeleteCommand s key flags) := by
  simp only [Server.processMdeleteCommand]
  rcases ran : Server.doItemGet s key false with ⟨_ | p, s₁⟩
  · exact (doItemGet ran).1
  obtain ⟨got, found⟩ := doItemGet (n := n) (t := t) (b := false) ran
  obtain ⟨before, here, alive⟩ := found p rfl
  refine got.trans ?_
  dsimp only
  split
  · exact (Acts.refl s₁).remove p
  · split
    · next stale =>
        exact (markStale here (alive rfl) (cleared p stale before) flags.newTtl).remove p
    · exact (Acts.one (.unlink s₁ p)).remove p

end Acts

end Kvsev.Server
