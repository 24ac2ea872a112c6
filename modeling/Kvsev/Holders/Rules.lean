import Kvsev.Holders.System

/-!
# What the steps do to the accounts

The rules for the background threads, for the commands that stay under the item lock
and for `mg`: from an exact state they lead to an exact state, for the account that
the references they take or give back make of the one before. None of them touches
an item that is neither linked nor new.
-/

namespace Kvsev.Server

open Counted

namespace Accounted

variable {held : ItemPtr → Nat} {limit : Nat} {s s' : State} {p : ItemPtr} {key : Key}

/-! ## Background threads -/

/-- A decrement without a look at the result, while somebody else holds the item. -/
protected theorem refcountDecr (acc : Accounted (more held p) limit s)
    (alive : (s.heap p).linked = true ∨ 0 < held p) : Accounted held limit (refcountDecr s p) := by
  refine acc.modify rfl rfl (fun q ne => (more_of_ne held ne).symm) ?_
  have forgone : entry (refcountDecr s p) p = (entry s p).forgo := by
    rw [entry, refcountDecr, State.modify_heap_self]
    rfl
  rw [← refcountDecr, forgone]
  have exact := acc.exact p
  rw [more_self] at exact
  exact exact.forgo alive

/-- The account after a bump: a queued entry holds the item. -/
def bumpedAccount (held : ItemPtr → Nat) (p : ItemPtr) : Bump → ItemPtr → Nat
  | .queued => more held p
  | _ => held

protected theorem doItemBump (acc : Accounted held limit s) (bumps : List ItemPtr) (bump : Bump)
    (lt : p < s.next) (holds : 0 < held p) (room : held p + 2 ≤ limit) :
    Accounted (bumpedAccount held p bump) limit (doItemBump s bumps p bump).1 := by
  have taken := acc.refcountIncr lt (.inr holds) room
  cases bump with
  | none => exact acc
  | time =>
    exact acc.modify_same p (f := fun it => { it with time := s.currentTime })
      ⟨rfl, rfl, rfl, rfl, rfl⟩
  | queued => exact taken
  | dropped => exact taken.refcountDecr (.inr holds)

theorem doItemBump_spares (s : State) (bumps : List ItemPtr) (bump : Bump) {own : ItemPtr → Prop}
    (mine : own p) : LeavesFree own s (doItemBump s bumps p bump).1 := by
  have taken : LeavesFree own s (refcountIncr s p) := LeavesFree.modify (.inr mine) _
  cases bump with
  | none => exact LeavesFree.refl own s
  | time =>
    simp only [doItemBump]
    exact LeavesFree.modify (.inr mine) _
  | queued => exact taken
  | dropped =>
    have given : LeavesFree own (refcountIncr s p) (refcountDecr (refcountIncr s p) p) :=
      LeavesFree.modify (.inr mine) _
    exact taken.trans given

theorem setExptime_spares (s : State) (touch : Option Nat) {own : ItemPtr → Prop} (mine : own p) :
    LeavesFree own s (Server.setExptime s p touch) := by
  cases touch with
  | none => exact LeavesFree.refl own s
  | some exptime =>
    simp only [Server.setExptime]
    exact LeavesFree.modify (.inr mine) _

theorem lruMaintainerBump (acc : Accounted (more held p) limit s) :
    Accounted held limit (lruMaintainerBump s p) :=
  (acc.doItemUpdate p).doItemRemove

protected theorem lruPullTail (acc : Accounted held limit s) (p : ItemPtr) (evict : Bool)
    (room : held p + 2 ≤ limit) :
    Settled held limit s (lruPullTail s p evict) := by
  simp only [lruPullTail]
  split
  · rename_i linked
    obtain ⟨taken, here⟩ := acc.visit linked room
    split
    · exact taken.drop here
    · exact taken.doItemRemove here
  · exact ⟨acc, LeavesFree.refl _ s⟩

/-- The evaluation of a visited item gives the crawler's reference back. -/
protected theorem crawlerEval (acc : Accounted (more held p) limit s)
    (linked : (s.heap p).linked = true) (kind : CrawlerModule) :
    Settled held limit s (crawlerEval s p kind) := by
  have left : Settled held limit s (refcountDecr s p) :=
    ⟨acc.refcountDecr (.inl linked), LeavesFree.modify (.inl linked) _⟩
  cases kind with
  | expired =>
    simp only [crawlerEval]
    split
    · exact ⟨acc.drop, LeavesFree.drop linked⟩
    · exact left
  | metadump => exact left

protected theorem itemCrawler (acc : Accounted held limit s) (p : ItemPtr) (kind : CrawlerModule)
    (room : held p + 2 ≤ limit) :
    Settled held limit s (itemCrawler s p kind) := by
  simp only [itemCrawler]
  split
  · rename_i linked
    obtain ⟨taken, here⟩ := acc.visit linked room
    split
    · exact (taken.1.crawlerEval here .metadump).after taken.2
    · exact (taken.1.crawlerEval here kind).after taken.2
  · exact ⟨acc, LeavesFree.refl _ s⟩

protected theorem itemCrawlHash (acc : Accounted held limit s) (p : ItemPtr)
    (room : held p + 2 ≤ limit) :
    Settled held limit s (itemCrawlHash s p) := by
  simp only [itemCrawlHash]
  split
  · rename_i linked
    obtain ⟨taken, here⟩ := acc.visit linked room
    split
    all_goals exact (taken.1.crawlerEval here .metadump).after taken.2
  · exact ⟨acc, LeavesFree.refl _ s⟩

protected theorem flushAll (acc : Accounted held limit s) (newOldest : Nat) :
    Settled held limit s (flushAll s newOldest) := by
  have same : ∀ oldestLive oldestCas casId, Accounted held limit
      { s with oldestLive, oldestCas, casId } ∧
      LeavesFree (fun _ => False) s { s with oldestLive, oldestCas, casId } :=
    fun _ _ _ => ⟨acc.of_same rfl rfl rfl, Nat.le_refl _, fun _ _ _ _ => rfl, rfl⟩
  simp only [flushAll]
  split
  · split
    · exact same _ _ _
    · exact same _ _ _
  · exact same _ _ _

/-! ## Commands under the item lock -/

section

variable (room : ∀ q, held q + 2 ≤ limit)
include room

/-- A lookup after which the item is taken out of the table or let go. -/
theorem getAndDrop (acc : Accounted held limit s) (key : Key) :
    Settled held limit s (dropOnFailedAlloc s key .set) := by
  simp only [dropOnFailedAlloc, if_true]
  rcases ran : doItemGet s key false with ⟨_ | p, s₁⟩
  · exact (acc.doItemGet_miss room ran).1
  · obtain ⟨got, linked, -⟩ := acc.doItemGet_hit room ran
    exact got.drop linked

theorem processDeleteCommand (acc : Accounted held limit s) (key : Key) :
    Settled held limit s (processDeleteCommand s key).2 := by
  simp only [Server.processDeleteCommand]
  split
  · exact ⟨acc, LeavesFree.refl _ s⟩
  have dropped := acc.getAndDrop room key
  simp only [dropOnFailedAlloc, if_true] at dropped
  rcases ran : doItemGet s key false with ⟨found, s₁⟩
  rw [ran] at dropped
  cases found with
  | none | some p => exact dropped

theorem processBinDelete (acc : Accounted held limit s) (key : Key) (cas : Nat) :
    Settled held limit s (processBinDelete s key cas) := by
  simp only [Server.processBinDelete]
  rcases ran : doItemGet s key false with ⟨_ | p, s₁⟩
  · exact (acc.doItemGet_miss room ran).1
  · obtain ⟨got, linked, -⟩ := acc.doItemGet_hit room ran
    dsimp only
    split
    · exact got.drop linked
    · exact got.doItemRemove linked

omit room in
theorem markStale (acc : Accounted held limit s) (p : ItemPtr) (newTtl : Option Nat) :
    Accounted held limit (markStale s p newTtl) := by
  have marked : ∀ casId, Accounted held limit ((setExptime s p newTtl).modify p fun it =>
      itemSetCas s { it with stale := true, tokenSent := false } casId) := by
    intro casId
    exact (acc.setExptime p newTtl).modify_same p
      ((alike_itemSetCas s _ casId).trans ⟨rfl, rfl, rfl, rfl, rfl⟩)
  exact (marked _).of_same rfl rfl rfl

omit room in
theorem markStale_spares (s : State) (newTtl : Option Nat) {own : ItemPtr → Prop} (mine : own p) :
    LeavesFree own s (Server.markStale s p newTtl) := by
  have marked : ∀ f casId, LeavesFree own s { (setExptime s p newTtl).modify p f with casId } := by
    intro f casId
    refine ⟨?_, fun q _ foreign _ => ?_, ?_⟩
    · cases newTtl <;> exact Nat.le_refl _
    · have ne : q ≠ p := fun same => foreign (same ▸ mine)
      cases newTtl with
      | none => exact State.modify_heap_of_ne f ne
      | some exptime =>
        dsimp only
        rw [State.modify_heap_of_ne f ne, setExptime, State.modify_heap_of_ne _ ne]
    · cases newTtl <;> rfl
  exact marked _ _

theorem processMdeleteCommand (acc : Accounted held limit s) (key : Key) (flags : MdeleteFlags) :
    Settled held limit s (processMdeleteCommand s key flags) := by
  simp only [Server.processMdeleteCommand]
  rcases ran : doItemGet s key false with ⟨_ | p, s₁⟩
  · exact (acc.doItemGet_miss room ran).1
  obtain ⟨got, linked, -⟩ := acc.doItemGet_hit room ran
  dsimp only
  split
  · exact got.doItemRemove linked
  split
  · have marked : LeavesFree (· = p) s₁
        (doItemRemove (Server.markStale s₁ p flags.newTtl) p) := by
      refine (markStale_spares s₁ flags.newTtl ?_).trans
        (LeavesFree.doItemRemove (.inr ?_))
      · rfl
      · rfl
    exact ⟨(got.1.markStale p flags.newTtl).doItemRemove,
      got.2.trans (marked.weaken fun q _ same => .inr (same ▸ linked))⟩
  · exact got.drop linked

omit room in
theorem processMarithmeticCommand (acc : Accounted held limit s) (req : DeltaRequest)
    (vivify : Option Vivify) (room : ∀ q, held q + 3 ≤ limit) :
    Settled held limit s (processMarithmeticCommand s req vivify) := by
  obtain ⟨acc₁, spares⟩ := acc.doAddDelta req fun q => Nat.le_of_succ_le (room q)
  simp only [Server.processMarithmeticCommand]
  rcases ran : Server.doAddDelta s req with ⟨r, s₁⟩
  rw [ran] at acc₁ spares
  cases vivify with
  | none => cases r <;> exact ⟨acc₁, spares⟩
  | some initial =>
    cases r with
    | itemNotFound =>
      dsimp only at acc₁ spares ⊢
      rcases alloc : doItemAlloc s₁ req.key 0 0 (initial.text.length + 2) initial.alloc with
          ⟨_ | p, s₂⟩
      · obtain rfl := doItemAlloc_none alloc
        exact ⟨acc₁, spares⟩
      obtain ⟨rfl, acc₂, free, -⟩ := acc₁.doItemAlloc alloc
      have acc₃ := acc₂.modify_same s₁.next
        (f := fun it => { it with data := initial.text ++ [13, 10] })
        ⟨rfl, rfl, rfl, rfl, rfl⟩
      have more := fun q => Nat.le_trans
        (Nat.add_le_add_right (more_le held s₁.next q) 2)
        (room q)
      obtain ⟨acc₄, stored⟩ := acc₃.doStoreItem .add false initial.copy
        (by rw [more_self]; exact Nat.succ_pos _)
        (by rw [State.modify_heap_self]; exact free) more
      have own : ∀ f, LeavesFree (· = s₁.next) s₁ (s₂.modify s₁.next f) := by
        intro f
        refine (LeavesFree.doItemAlloc alloc).trans (LeavesFree.modify (.inr ?_) f)
        rfl
      have done := ((own _).trans stored).trans (LeavesFree.doItemRemove (.inr rfl))
      exact ⟨acc₄.doItemRemove, spares.trans
        (done.weaken fun q lt same => absurd (same ▸ lt) (Nat.lt_irrefl _))⟩
    | _ => exact ⟨acc₁, spares⟩

end

/-! ## The meta command `mg` -/

theorem metaHit (acc : Accounted held limit s) (p : ItemPtr) (created : Bool)
    (flags : List MetaFlag) (input : MetaInput) :
    Accounted held limit (metaHit s p created flags input).2 := by
  obtain ⟨exptime, same⟩ := metaFields_item s created input.fetched (s.heap p) false flags
  have marked : ∀ tokenSent time, Accounted held limit (s.modify p fun _ =>
      { (metaFields s created input.fetched (s.heap p) false flags).1 with tokenSent, time }) := by
    intro tokenSent time
    refine acc.modify_same p ?_
    rw [same]
    exact ⟨rfl, rfl, rfl, rfl, rfl⟩
  exact (marked _ _).of_same rfl rfl rfl

/-- Apart from the response that it adds. -/
theorem metaHit_spares (s : State) (created : Bool) (flags : List MetaFlag) (input : MetaInput)
    {own : ItemPtr → Prop} (mine : own p) :
    ∃ s', (Server.metaHit s p created flags input).2 =
        { s' with pending := s'.pending ++ [p] } ∧ LeavesFree own s s' :=
  ⟨_, rfl, LeavesFree.modify (.inr mine) _⟩

/-- A refused command gives its reference back. -/
theorem metaRefuse (acc : Accounted (more held p) limit s) (created : Bool)
    (flags : List MetaFlag) (input : MetaInput) :
    Accounted held limit (metaRefuse s p created flags input).2 := by
  obtain ⟨exptime, same⟩ := metaFields_item s created input.fetched (s.heap p) false
    (flags.takeWhile fun flag => !flag.tooLong)
  refine (acc.modify_same p (f := fun _ => _) ?_).doItemRemove
  rw [same]
  exact ⟨rfl, rfl, rfl, rfl, rfl⟩

theorem metaRefuse_spares (s : State) (created : Bool) (flags : List MetaFlag)
    (input : MetaInput) {own : ItemPtr → Prop} (mine : own p) :
    LeavesFree own s (Server.metaRefuse s p created flags input).2 :=
  (LeavesFree.modify (.inr mine) _).trans (LeavesFree.doItemRemove (.inr mine))

end Accounted

end Kvsev.Server
