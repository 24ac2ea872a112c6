import Kvsev.Server.Ages
import Kvsev.Server.Chunks

/-!
# Items that the slab mover rescues

The mover copies an item, or one chunk of it, to other memory and makes everything point
there that pointed to the old place. For the header of an item this goes through the same
functions as a store, which give it a new token. Here the value of a chunked item is what
a reader finds in its chunks.
-/

namespace Kvsev.Server

open Function Memory

/-- The items, and the chunks of those that are chunked. -/
structure Store where
  server : State
  chunks : Chunks

/-- What the mover has at hand: the header of an item, which is the whole item if it is not
chunked, or one of its chunks and the memory that it is copied to. -/
inductive Target where
  | header
  | part (c nc : Nat)

def Target.isPart : Target → Bool
  | header => false
  | part _ _ => true

/-- The mover has found the item idle, and keeps it. -/
def Rescues (s : State) (p : ItemPtr) (input : MoveInput) : Prop :=
  (s.heap p).linked = true ∧ (s.heap p).refcount = 1 ∧ moveDrops s (s.heap p) input = false

instance (s : State) (p : ItemPtr) (input : MoveInput) : Decidable (Rescues s p input) :=
  inferInstanceAs (Decidable (_ ∧ _))

/-- What a client gets to see of an item. -/
structure Shown where
  value : List UInt8
  flags : Nat
  cas : Nat
  deriving DecidableEq, Repr

namespace Store

/-- The bytes of a value. -/
def value (st : Store) (p : ItemPtr) : List UInt8 :=
  let it := st.server.heap p
  if it.chunked then (st.chunks.readFrom (st.chunks.count + 1) (some (.first p))).take it.nbytes
  else it.data

/-- `gets` -/
def gets (st : Store) (key : Key) : Option Shown :=
  match (doItemGet st.server key false).1 with
  | none => none
  | some p =>
    let it := st.server.heap p
    some ⟨st.value p, it.flags, itemGetCas st.server it⟩

/-- `slab_rebalance_move`, with the writes to the chunks of an item that is rescued. -/
def slabRebalanceMove (st : Store) (p : ItemPtr) (target : Target) (room deletesBusy : Bool) :
    Exec Store :=
  let it := st.server.heap p
  let input : MoveInput := ⟨target.isPart, room, deletesBusy⟩
  let server := Server.slabRebalanceMove st.server p input
  if Rescues st.server p input then
    match target with
    | .header =>
      if it.chunked then do
        let chunks ← st.chunks.moveHeader p st.server.next
        return ⟨server, chunks⟩
      else .ok ⟨server, st.chunks⟩
    | .part c nc => do
      let chunks ← st.chunks.movePart (.part c) (.part nc)
      return ⟨server, chunks⟩
  else .ok ⟨server, st.chunks⟩

/-- The chunks of each chunked item are in order, and hold its value. -/
structure Valid (st : Store) (parts : ItemPtr → List Nat) : Prop where
  table : WellLinked st.server
  timely : Timely st.server
  chained : ∀ key p, st.server.assoc key = some p → (st.server.heap p).chunked = true →
    st.chunks.Chained p (parts p) ∧
      st.chunks.bytes (Chunks.chain p (parts p)) = (st.server.heap p).data

end Store

variable {s s' : State} {st st' : Store} {parts : ItemPtr → List Nat} {p : ItemPtr} {key : Key}
  {input : MoveInput}

/-- A reader of a chunked item finds its value. -/
theorem Store.Valid.value_eq (valid : st.Valid parts) (found : st.server.assoc key = some p) :
    st.value p = (st.server.heap p).data := by
  unfold Store.value
  dsimp only
  split
  · next chunked =>
      obtain ⟨chained, bytes⟩ := valid.chained key p found chunked
      have read := Chunks.readFrom_seg chained.seg chained.short
      rw [bytes] at read
      rw [show some (Node.first p) = (Chunks.chain p (parts p)).head? from rfl, read]
      exact List.take_length
  · rfl

/-- The item in its new place. -/
structure Copied (s s' : State) (p : ItemPtr) (key : Key) : Prop extends SameHorizon s s' where
  next : s'.next = s.next + 1
  assoc : s'.assoc = update s.assoc key (some s.next)
  item : ∃ refcount peak, s'.heap s.next =
    { itemSetCas s (s.heap p) (u64 (s.casId + 1)) with
      linked := true, time := s.currentTime, refcount, peak }
  others : ∀ q, q ≠ p → q < s.next → s'.heap q = s.heap q

/-- All but the token, the time and the references is as before. -/
theorem Copied.same (copied : Copied s s' p key) :
    (s'.heap s.next).key = (s.heap p).key ∧ (s'.heap s.next).linked = true ∧
      (s'.heap s.next).time = s.currentTime ∧ (s'.heap s.next).chunked = (s.heap p).chunked ∧
      (s'.heap s.next).data = (s.heap p).data ∧ (s'.heap s.next).flags = (s.heap p).flags ∧
      (s'.heap s.next).exptime = (s.heap p).exptime ∧ (s'.heap s.next).mac = (s.heap p).mac ∧
      (s'.heap s.next).mtIndex = (s.heap p).mtIndex := by
  obtain ⟨refcount, peak, item⟩ := copied.item
  rw [item, itemSetCas]
  split
  · exact ⟨rfl, rfl, rfl, rfl, rfl, rfl, rfl, rfl, rfl⟩
  · exact ⟨rfl, rfl, rfl, rfl, rfl, rfl, rfl, rfl, rfl⟩

theorem Copied.entry {key' : Key} {q : ItemPtr} (copied : Copied s s' p key)
    (table : WellLinked s) (found : s.assoc key = some p) (entry : s'.assoc key' = some q) :
    (key' = key ∧ q = s.next) ∨ (q ≠ p ∧ q < s.next ∧ s.assoc key' = some q) := by
  rw [copied.assoc] at entry
  by_cases same : key' = key
  · rw [same, update_self] at entry
    exact .inl ⟨same, (Option.some.inj entry).symm⟩
  · rw [update_of_ne same] at entry
    refine .inr ⟨?_, table.old key' q entry, entry⟩
    rintro rfl
    exact same ((table.key key' q entry).symm.trans (table.key key q found))

theorem doItemReplace_heap {old new q : ItemPtr} (linked : (s.heap old).linked = true)
    (other : new ≠ old) :
    (doItemReplace s old new).heap q =
      if q = new then
        { itemSetCas s (s.heap new) (if s.settings.useCas then u64 (s.casId + 1) else s.casId) with
          linked := true, time := s.currentTime, refcount := (s.heap new).refcount + 1
          peak := max (s.heap new).peak ((s.heap new).refcount + 1) }
      else if q = old then (doItemUnlink s old).heap old
      else s.heap q := by
  split
  · next same =>
      subst same
      rw [doItemReplace, doItemLink]
      have kept : (doItemUnlink s old).heap q = s.heap q := by
        rw [doItemUnlink, if_pos linked]
        simp [doItemRemove, State.modify, other]
      have rest : (doItemUnlink s old).settings = s.settings ∧
          (doItemUnlink s old).casId = s.casId ∧
          (doItemUnlink s old).currentTime = s.currentTime := by
        rw [doItemUnlink, if_pos linked]
        exact ⟨rfl, rfl, rfl⟩
      simp only [State.modify_heap_self, kept, rest, itemSetCas]
  · next notNew =>
      rw [doItemReplace, doItemLink]
      simp only [State.modify_heap_of_ne _ notNew]
      split
      · next same => rw [same]
      · next notOld =>
          rw [doItemUnlink, if_pos linked]
          simp [doItemRemove, State.modify, notOld]

theorem copied_of_replace {s₁ : State} (other : s.next ≠ p) (isKey : (s.heap p).key = key)
    (same : SameHorizon s s₁) (casId : s₁.casId = s.casId) (next : s₁.next = s.next + 1)
    (assoc : s₁.assoc = s.assoc)
    (copy : s₁.heap s.next = { s.heap p with linked := false, refcount := 0 })
    (linked : (s₁.heap p).linked = true) (sameKey : (s₁.heap p).key = key)
    (others : ∀ q, q ≠ p → q < s.next → s₁.heap q = s.heap q) :
    Copied s ((doItemReplace s₁ p s.next).modify p fun it => { it with refcount := 0 }) p key := by
  have unlinked : (doItemUnlink s₁ p).assoc = update s.assoc key none ∧
      SameHorizon s₁ (doItemUnlink s₁ p) ∧ (doItemUnlink s₁ p).next = s₁.next ∧
      (doItemUnlink s₁ p).heap s.next = s₁.heap s.next := by
    rw [doItemUnlink, if_pos linked, sameKey, assoc]
    refine ⟨rfl, ⟨rfl, rfl, rfl, rfl⟩, rfl, ?_⟩
    simp [doItemRemove, State.modify, other]
  obtain ⟨table, same', next', new⟩ := unlinked
  refine ⟨{ same.trans same' with }, next'.trans next, ?_, ?_, fun q notOld lt => ?_⟩
  · rw [State.modify_assoc, doItemReplace, doItemLink, table, new, copy]
    simp only [isKey, update_idem]
  · rw [State.modify_heap_of_ne _ other, doItemReplace_heap linked other, if_pos rfl, copy]
    refine ⟨1, max (s.heap p).peak 1, ?_⟩
    simp only [itemSetCas, same.settings, casId, same.currentTime]
    split <;> rfl
  · rw [State.modify_heap_of_ne _ notOld, doItemReplace_heap linked other,
      if_neg (Nat.ne_of_lt lt), if_neg notOld]
    exact others q notOld lt

theorem copied_of_rescues (table : WellLinked s) (found : s.assoc key = some p)
    (rescues : Rescues s p input) (header : input.part = false) :
    Copied s (slabRebalanceMove s p input) p key := by
  obtain ⟨linked, idle, keeps⟩ := rescues
  have old : s.next ≠ p := (Nat.ne_of_lt (table.old key p found)).symm
  have isKey := table.key key p found
  have keeps : moveDrops (refcountIncr s p) (s.heap p) input = false := keeps
  unfold slabRebalanceMove
  dsimp only
  rw [if_pos linked, if_pos idle, keeps, header]
  simp only [Bool.false_eq_true, if_false]
  refine copied_of_replace old isKey ⟨rfl, rfl, rfl, rfl⟩ rfl rfl rfl (update_self _ _ _) ?_ ?_
    fun q notOld lt => ?_
  · simpa [refcountIncr, old.symm] using linked
  · simpa [refcountIncr, old.symm] using isKey
  · have notNew : q ≠ (refcountIncr s p).next := Nat.ne_of_lt lt
    simp only [update_of_ne notNew]
    exact State.modify_heap_of_ne _ notOld

/-- For a chunk only the reference of the mover comes and goes. -/
theorem slabRebalanceMove_part (rescues : Rescues s p input) (part : input.part = true) :
    ∃ peak, slabRebalanceMove s p input = s.modify p fun it => { it with peak } := by
  obtain ⟨linked, idle, keeps⟩ := rescues
  have keeps : moveDrops (refcountIncr s p) (s.heap p) input = false := keeps
  unfold slabRebalanceMove
  dsimp only
  rw [if_pos linked, if_pos idle, keeps, part]
  simp only [Bool.false_eq_true, if_false, if_true]
  refine ⟨max (s.heap p).peak 2, ?_⟩
  simp [doItemRemove, refcountIncr, State.modify, idle]

/-- The memory that a chunk is moved to is free. -/
def Target.Fresh (st : Store) (parts : ItemPtr → List Nat) (p : ItemPtr) : Target → Prop
  | header => True
  | part c nc => (st.server.heap p).chunked = true ∧ c ∈ parts p ∧ nc < st.chunks.count ∧
    ∀ key q, st.server.assoc key = some q → (st.server.heap q).chunked = true → nc ∉ parts q

namespace Store

/-- Other items are not affected by what happens to the chunks of one. -/
theorem Valid.chained_of_frame {chunks : Chunks} {xs : List Node} {q : ItemPtr} {key' : Key}
    (valid : st.Valid parts) (found : st.server.assoc key' = some q)
    (chunked : (st.server.heap q).chunked = true) (frame : Chunks.Frame xs st.chunks chunks)
    (apart : ∀ n ∈ xs, n ∉ Chunks.chain q (parts q)) :
    chunks.Chained q (parts q) ∧
      chunks.bytes (Chunks.chain q (parts q)) = (st.server.heap q).data := by
  obtain ⟨chained, bytes⟩ := valid.chained key' q found chunked
  have away (n : Node) (mem : n ∈ Chunks.chain q (parts q)) : n ∉ xs := fun there =>
    apart n there mem
  refine ⟨chained.frame (fun n mem => frame.links n (away n mem))
    (fun n mem => frame.chunk n (away n mem)) frame.count, ?_⟩
  rw [← bytes]
  refine Chunks.bytes_congr (List.map_congr_left fun n mem => ?_)
  rw [frame.chunk n (away n mem)]

/-- Chunks point to the header of their item, so that no two items share one. -/
theorem Valid.chains_apart {q : ItemPtr} {key' : Key} {n : Node} (valid : st.Valid parts)
    (found : st.server.assoc key = some p) (found' : st.server.assoc key' = some q)
    (chunked : (st.server.heap p).chunked = true) (chunked' : (st.server.heap q).chunked = true)
    (other : q ≠ p) (mem : n ∈ Chunks.chain p (parts p)) : n ∉ Chunks.chain q (parts q) := by
  intro mem'
  have here := (valid.chained key p found chunked).1.heads n mem
  have there := (valid.chained key' q found' chunked').1.heads n mem'
  exact other (there.symm.trans here)

theorem Valid.movePart {c nc : Nat} {room deletesBusy : Bool} (valid : st.Valid parts)
    (found : st.server.assoc key = some p) (rescues : Rescues st.server p ⟨true, room, deletesBusy⟩)
    (fresh : (Target.part c nc).Fresh st parts p) :
    ∃ st' parts', st.slabRebalanceMove p (.part c nc) room deletesBusy = .ok st' ∧
      st'.Valid parts' ∧ ∃ peak, st'.server = st.server.modify p fun it => { it with peak } := by
  obtain ⟨chunked, mem, lt, free⟩ := fresh
  obtain ⟨peak, server⟩ := slabRebalanceMove_part rescues rfl
  obtain ⟨chained, bytes⟩ := valid.chained key p found chunked
  obtain ⟨as, bs, split⟩ := List.append_of_mem mem
  rw [split] at chained bytes
  have unused : nc ∉ as ++ c :: bs := split ▸ free key p found chunked
  obtain ⟨chunks, ran, moved, same, frame⟩ := chained.movePart unused lt
  refine ⟨⟨st.server.modify p fun it => { it with peak }, chunks⟩,
    update parts p (as ++ nc :: bs), ?_, ?_, peak, rfl⟩
  · have idle : Rescues st.server p ⟨(Target.part c nc).isPart, room, deletesBusy⟩ := rescues
    unfold slabRebalanceMove
    dsimp only
    rw [if_pos idle, ran, ← server]
    rfl
  · generalize modified : (st.server.modify p fun it => { it with peak }) = s'
    have heap (q : ItemPtr) : (s'.heap q).key = (st.server.heap q).key ∧
        (s'.heap q).linked = (st.server.heap q).linked ∧
        (s'.heap q).time = (st.server.heap q).time ∧
        (s'.heap q).chunked = (st.server.heap q).chunked ∧
        (s'.heap q).data = (st.server.heap q).data := by
      rw [← modified]
      by_cases here : q = p
      · rw [here, State.modify_heap_self]
        exact ⟨rfl, rfl, rfl, rfl, rfl⟩
      · rw [State.modify_heap_of_ne _ here]
        exact ⟨rfl, rfl, rfl, rfl, rfl⟩
    have assoc : s'.assoc = st.server.assoc := by rw [← modified, State.modify_assoc]
    have next : s'.next = st.server.next := by rw [← modified, State.modify_next]
    have now : s'.currentTime = st.server.currentTime := by rw [← modified]; rfl
    refine ⟨?_, fun key' q found' => ?_, fun key' q found' chunked' => ?_⟩
    · exact valid.table.of_same assoc next.ge fun q _ => ⟨(heap q).1, (heap q).2.1⟩
    · simp only [assoc] at found'
      simp only [next, now, (heap q).2.2.1]
      exact valid.timely key' q found'
    · simp only [assoc, (heap q).2.2.2.1] at found' chunked'
      simp only [(heap q).2.2.2.2]
      by_cases here : q = p
      · subst here
        rw [update_self]
        exact ⟨moved, same.trans bytes⟩
      rw [update_of_ne here]
      refine valid.chained_of_frame found' chunked' frame fun n there => ?_
      obtain rfl | there := List.mem_cons.mp there
      · rw [Chunks.part_mem_chain]
        exact free key' q found' chunked'
      · rw [← split] at there
        exact valid.chains_apart found found' chunked chunked' here there

theorem Valid.moveHeader {room deletesBusy : Bool} (valid : st.Valid parts)
    (found : st.server.assoc key = some p)
    (rescues : Rescues st.server p ⟨false, room, deletesBusy⟩) :
    ∃ st' parts', st.slabRebalanceMove p .header room deletesBusy = .ok st' ∧
      st'.Valid parts' ∧ Copied st.server st'.server p key := by
  have copied := copied_of_rescues valid.table found rescues rfl
  have lt := valid.table.old key p found
  have isKey := valid.table.key key p found
  generalize server : Server.slabRebalanceMove st.server p ⟨false, room, deletesBusy⟩ = s' at copied
  -- The chunks of the item belong to the new header now.
  obtain ⟨chunks, xs, ran, moved, frame, few⟩ : ∃ chunks xs,
      st.slabRebalanceMove p .header room deletesBusy = .ok ⟨s', chunks⟩ ∧
      ((st.server.heap p).chunked = true → chunks.Chained st.server.next (parts p) ∧
        chunks.bytes (Chunks.chain st.server.next (parts p)) = (st.server.heap p).data) ∧
      Chunks.Frame xs st.chunks chunks ∧
      ∀ n ∈ xs, n = .first st.server.next ∨
        ((st.server.heap p).chunked = true ∧ n ∈ Chunks.chain p (parts p)) := by
    have idle : Rescues st.server p ⟨Target.header.isPart, room, deletesBusy⟩ := rescues
    unfold slabRebalanceMove
    dsimp only
    rw [if_pos idle, ← server]
    split
    · next chunked =>
        obtain ⟨chained, bytes⟩ := valid.chained key p found chunked
        obtain ⟨chunks, ran, moved, same, frame⟩ := chained.moveHeader (Nat.ne_of_gt lt)
        rw [ran]
        refine ⟨chunks, _, rfl, fun _ => ⟨moved, same.trans bytes⟩, frame, fun n mem => ?_⟩
        exact (List.mem_cons.mp mem).imp_right fun mem => ⟨chunked, mem⟩
    · next plain =>
        exact ⟨st.chunks, [], rfl, fun chunked => absurd chunked plain,
          ⟨fun _ _ => ⟨rfl, rfl⟩, fun _ _ => rfl, rfl⟩, nofun⟩
  refine ⟨⟨s', chunks⟩, update parts st.server.next (parts p), ran, ?_, copied⟩
  obtain ⟨newKey, newLinked, newTime, newChunked, newData, -⟩ := copied.same
  have entry {key' : Key} {q : ItemPtr} (found' : s'.assoc key' = some q) :=
    copied.entry valid.table found found'
  have free (q : ItemPtr) (lt : q < st.server.next) : Node.first st.server.next ∉
      Chunks.chain q (parts q) := by
    simp [Chunks.chain, Nat.ne_of_gt lt]
  refine ⟨⟨fun key' q found' => ?_, fun key' q found' => ?_, fun key' q found' => ?_⟩,
    fun key' q found' => ?_, fun key' q found' chunked' => ?_⟩
  · obtain ⟨-, rfl⟩ | ⟨-, lt', -⟩ := entry found'
    · exact copied.next ▸ Nat.lt_succ_self _
    · exact copied.next ▸ Nat.lt_succ_of_lt lt'
  · obtain ⟨rfl, rfl⟩ | ⟨other, lt', old⟩ := entry found'
    · exact newKey.trans isKey
    · exact (congrArg Item.key (copied.others q other lt')).trans (valid.table.key key' q old)
  · obtain ⟨rfl, rfl⟩ | ⟨other, lt', old⟩ := entry found'
    · exact newLinked
    · exact (congrArg Item.linked (copied.others q other lt')).trans
        (valid.table.linked key' q old)
  · obtain ⟨rfl, rfl⟩ | ⟨other, lt', old⟩ := entry found'
    · exact ⟨copied.next ▸ Nat.lt_succ_self _, (newTime.trans copied.currentTime.symm).le⟩
    · refine ⟨copied.next ▸ Nat.lt_succ_of_lt lt', ?_⟩
      simp only [copied.others q other lt', copied.currentTime]
      exact (valid.timely key' q old).2
  · obtain ⟨rfl, rfl⟩ | ⟨other, lt', old⟩ := entry found'
    · rw [update_self]
      simp only [newChunked] at chunked'
      simp only [newData]
      exact moved chunked'
    rw [update_of_ne (Nat.ne_of_lt lt')]
    simp only [copied.others q other lt'] at chunked' ⊢
    refine valid.chained_of_frame old chunked' frame fun n mem => ?_
    obtain rfl | ⟨chunked, mem⟩ := few n mem
    · exact free q lt'
    · exact valid.chains_apart found old chunked chunked' other mem

theorem gets_eq (found : st.server.assoc key = some p) :
    st.gets key = if itemIsDead st.server (st.server.heap p) then none
      else some ⟨st.value p, (st.server.heap p).flags,
        itemGetCas st.server (st.server.heap p)⟩ := by
  unfold gets doItemGet
  rw [found]
  by_cases dead : itemIsDead st.server (st.server.heap p) = true
  · simp [dead]
  · simp [dead]

end Store

/-! ## What clients see -/

/-- The item as it would be after a link. -/
def relinked (s : State) (it : Item) : Item :=
  { itemSetCas s it (u64 (s.casId + 1)) with time := s.currentTime }

/-- Clients do not notice the move of the item `p`, and it stays as it is. -/
structure Invisible (st st' : Store) (key : Key) (p : ItemPtr) : Prop where
  gets : st'.gets key = st.gets key
  item : ∃ p', st'.server.assoc key = some p' ∧
    (st'.server.heap p').exptime = (st.server.heap p).exptime ∧
    (st'.server.heap p').mac = (st.server.heap p).mac ∧
    (st'.server.heap p').mtIndex = (st.server.heap p).mtIndex ∧
    itemIsFlushed st'.server (st'.server.heap p') = itemIsFlushed st.server (st.server.heap p)

/-- A move of a chunk, or one that cannot change the token: there are none, or the next one
is the item's own, or nobody can ask for it any more. -/
def Unnoticed (s : State) (p : ItemPtr) (target : Target) : Prop :=
  target.isPart = true ∨ s.settings.useCas = false ∨ (s.heap p).cas = u64 (s.casId + 1) ∨
    ((s.heap p).exptime ≠ 0 ∧ (s.heap p).exptime = s.currentTime ∧
      itemIsFlushed s (relinked s (s.heap p)) = false)

theorem relinked_cas_iff (it : Item) : itemGetCas s (relinked s it) = itemGetCas s it ↔
    s.settings.useCas = false ∨ it.cas = u64 (s.casId + 1) := by
  unfold itemGetCas relinked itemSetCas
  cases s.settings.useCas
  · simp
  · simp [eq_comm]

/-- An item that is linked again with its own token is as alive as before. -/
theorem relinked_not_flushed {it : Item} (calm : itemIsFlushed s it = false)
    (past : it.time ≤ s.currentTime) (token : itemGetCas s (relinked s it) = itemGetCas s it) :
    itemIsFlushed s (relinked s it) = false := by
  rw [← Bool.not_eq_true, itemIsFlushed_iff] at calm ⊢
  rw [token]
  rintro ⟨set, due, old⟩
  refine calm ⟨set, due, old.imp_left fun le => ?_⟩
  have now : (relinked s it).time = s.currentTime := rfl
  rw [now] at le
  exact past.trans le

theorem Copied.invisible_iff {parts' : ItemPtr → List Nat} (valid : st.Valid parts)
    (valid' : st'.Valid parts') (found : st.server.assoc key = some p)
    (copied : Copied st.server st'.server p key)
    (keeps : moveDrops st.server (st.server.heap p) input = false) :
    Invisible st st' key p ↔ Unnoticed st.server p .header := by
  obtain ⟨-, -, -, -, newData, newFlags, newExptime, newMac, newIndex⟩ := copied.same
  have found' : st'.server.assoc key = some st.server.next := by
    rw [copied.assoc, update_self]
  have value : st'.value st.server.next = st.value p := by
    rw [valid'.value_eq found', valid.value_eq found, newData]
  obtain ⟨refcount, peak, item⟩ := copied.item
  have token : itemGetCas st'.server (st'.server.heap st.server.next) =
      itemGetCas st.server (relinked st.server (st.server.heap p)) := by
    rw [itemGetCas, itemGetCas, copied.settings, item]
    rfl
  have flushed : itemIsFlushed st'.server (st'.server.heap st.server.next) =
      itemIsFlushed st.server (relinked st.server (st.server.heap p)) := by
    refine itemIsFlushed_congr copied.toSameHorizon ?_ ?_
    · rw [item]
      rfl
    · rw [item]
      rfl
  obtain ⟨due, calm⟩ : ¬((st.server.heap p).exptime ≠ 0 ∧
      (st.server.heap p).exptime < st.server.currentTime) ∧
      itemIsFlushed st.server (st.server.heap p) = false := by
    simp only [moveDrops, decide_eq_false_iff_not, not_or, Bool.not_eq_true] at keeps
    exact ⟨keeps.1, keeps.2.1⟩
  have dead : itemIsDead st.server (st.server.heap p) = true ↔
      (st.server.heap p).exptime ≠ 0 ∧ (st.server.heap p).exptime = st.server.currentTime := by
    simp only [itemIsDead, calm, Bool.false_eq_true, false_or, decide_eq_true_eq]
    omega
  have dead' : itemIsDead st'.server (st'.server.heap st.server.next) = true ↔
      itemIsFlushed st.server (relinked st.server (st.server.heap p)) = true ∨
      ((st.server.heap p).exptime ≠ 0 ∧ (st.server.heap p).exptime = st.server.currentTime) := by
    simp only [itemIsDead, flushed, newExptime, copied.currentTime, decide_eq_true_eq]
    exact or_congr_right (by omega)
  constructor
  · rintro ⟨gets, p', entry, -, -, -, status⟩
    obtain rfl : st.server.next = p' := Option.some.inj (found'.symm.trans entry)
    rw [flushed, calm] at status
    by_cases expired : (st.server.heap p).exptime ≠ 0 ∧
        (st.server.heap p).exptime = st.server.currentTime
    · exact .inr (.inr (.inr ⟨expired.1, expired.2, status⟩))
    have alive' : ¬itemIsDead st'.server (st'.server.heap st.server.next) = true := by
      rw [dead', status]
      simpa using expired
    rw [Store.gets_eq found', Store.gets_eq found, if_neg (mt dead.mp expired), if_neg alive',
      token] at gets
    have same := congrArg Shown.cas (Option.some.inj gets)
    exact .inr ((relinked_cas_iff _).mp same |>.imp_right .inl)
  · intro unnoticed
    have safe : itemIsFlushed st.server (relinked st.server (st.server.heap p)) = false := by
      obtain part | off | same | expired := unnoticed
      · cases part
      · exact relinked_not_flushed calm (valid.timely key p found).2
          ((relinked_cas_iff _).mpr (.inl off))
      · exact relinked_not_flushed calm (valid.timely key p found).2
          ((relinked_cas_iff _).mpr (.inr same))
      · exact expired.2.2
    refine ⟨?_, st.server.next, found', newExptime, newMac, newIndex, by rw [flushed, safe, calm]⟩
    rw [Store.gets_eq found', Store.gets_eq found]
    by_cases expired : (st.server.heap p).exptime ≠ 0 ∧
        (st.server.heap p).exptime = st.server.currentTime
    · rw [if_pos (dead.mpr expired), if_pos (dead'.mpr (.inr expired))]
    have alive' : ¬itemIsDead st'.server (st'.server.heap st.server.next) = true := by
      rw [dead', safe]
      simpa using expired
    have same : itemGetCas st.server (relinked st.server (st.server.heap p)) =
        itemGetCas st.server (st.server.heap p) := by
      refine (relinked_cas_iff _).mpr ?_
      obtain part | off | same | gone := unnoticed
      · cases part
      · exact .inl off
      · exact .inr same
      · exact absurd ⟨gone.1, gone.2.1⟩ expired
    rw [if_neg (mt dead.mp expired), if_neg alive', token, same, value, newFlags]

/-- Nothing that clients see depends on how often an item was referenced. -/
theorem invisible_of_peak {parts' : ItemPtr → List Nat} (valid : st.Valid parts)
    (valid' : st'.Valid parts') (found : st.server.assoc key = some p)
    (server : ∃ peak, st'.server = st.server.modify p fun it => { it with peak }) :
    Invisible st st' key p := by
  obtain ⟨peak, server⟩ := server
  have found' : st'.server.assoc key = some p := by rw [server, State.modify_assoc, found]
  have item : st'.server.heap p = { st.server.heap p with peak } := by
    rw [server, State.modify_heap_self]
  have settings : st'.server.settings = st.server.settings := by rw [server, State.modify_settings]
  have now : st'.server.currentTime = st.server.currentTime := by rw [server]; rfl
  have value : st'.value p = st.value p := by
    rw [valid'.value_eq found', valid.value_eq found, item]
  have flushed : itemIsFlushed st'.server (st'.server.heap p) =
      itemIsFlushed st.server (st.server.heap p) := by
    refine itemIsFlushed_congr ⟨settings, now, ?_, ?_⟩ ?_ ?_
    · rw [server]
      rfl
    · rw [server]
      rfl
    · rw [item]
    · rw [item]
  have dead : itemIsDead st'.server (st'.server.heap p) =
      itemIsDead st.server (st.server.heap p) := by
    have exptime : (st'.server.heap p).exptime = (st.server.heap p).exptime := by rw [item]
    simp only [itemIsDead, flushed, exptime, now]
  refine ⟨?_, p, found', ?_, ?_, ?_, flushed⟩
  · rw [Store.gets_eq found', Store.gets_eq found, value, dead, itemGetCas, itemGetCas, settings,
      item]
  · rw [item]
  · rw [item]
  · rw [item]

/-- For every linked item that the mover rescues, plain or chunked and with all of its
fields: the move is invisible exactly if it is one that cannot change the token. -/
theorem rescue_invisible_iff {target : Target} {room deletesBusy : Bool} (valid : st.Valid parts)
    (found : st.server.assoc key = some p)
    (rescues : Rescues st.server p ⟨target.isPart, room, deletesBusy⟩)
    (fresh : target.Fresh st parts p) :
    ∃ st' parts', st.slabRebalanceMove p target room deletesBusy = .ok st' ∧
      st'.Valid parts' ∧ (Invisible st st' key p ↔ Unnoticed st.server p target) := by
  cases target with
  | header =>
    obtain ⟨st', parts', ran, valid', copied⟩ := valid.moveHeader found rescues
    exact ⟨st', parts', ran, valid', copied.invisible_iff valid valid' found rescues.2.2⟩
  | part c nc =>
    obtain ⟨st', parts', ran, valid', server⟩ := valid.movePart found rescues fresh
    exact ⟨st', parts', ran, valid', fun _ => .inl rfl,
      fun _ => invisible_of_peak valid valid' found server⟩

/-- An item with a value in two chunks, and an empty chunk between them. -/
def twoChunks : Item :=
  { noItem with
    key := [107], linked := true, refcount := 1, chunked := true, flags := 7, cas := 1
    data := [1, 2, 3], time := 2 }

def twoChunkStore : Store where
  server :=
    { State.init defaultSettings with
      heap := fun p => if p = 0 then twoChunks else noItem, next := 1
      assoc := fun key => if key = [107] then some 0 else none, casId := 1 }
  chunks :=
    { links :=
        { next := fun n =>
            if n = .first 0 then some (.part 0) else if n = .part 0 then some (.part 1)
            else if n = .part 1 then some (.part 2) else none
          prev := fun n =>
            if n = .part 0 then some (.first 0) else if n = .part 1 then some (.part 0)
            else if n = .part 2 then some (.part 1) else none
          head := none
          tail := none }
      chunk := fun n =>
        if n = .part 0 then ⟨0, 2, [1, 2]⟩ else if n = .part 2 then ⟨0, 1, [3]⟩ else ⟨0, 0, []⟩
      count := 4 }

theorem twoChunkStore_assoc {key : Key} {p : ItemPtr}
    (found : twoChunkStore.server.assoc key = some p) : key = [107] ∧ p = 0 := by
  simp only [twoChunkStore] at found
  split at found
  · next same => exact ⟨same, (Option.some.inj found).symm⟩
  · cases found

theorem twoChunkStore_valid : twoChunkStore.Valid fun _ => [0, 1, 2] := by
  have chained : twoChunkStore.chunks.Chained 0 [0, 1, 2] := by
    refine ⟨?_, by decide, by decide, by decide, by decide, by decide⟩
    simp [Chunks.chain, Linked.Links.Seg, twoChunkStore]
  constructor
  · constructor <;> intro key p found <;> obtain ⟨rfl, rfl⟩ := twoChunkStore_assoc found <;> decide
  · intro key p found
    obtain ⟨-, rfl⟩ := twoChunkStore_assoc found
    decide
  · intro key p found _
    obtain ⟨-, rfl⟩ := twoChunkStore_assoc found
    exact ⟨chained, rfl⟩

theorem rescue_invisible_part :
    ∃ st' parts', twoChunkStore.slabRebalanceMove 0 (.part 1 3) true false = .ok st' ∧
      st'.Valid parts' ∧
      (Invisible twoChunkStore st' [107] 0 ↔ Unnoticed twoChunkStore.server 0 (.part 1 3)) := by
  have away : 3 ∉ [0, 1, 2] := by decide
  exact rescue_invisible_iff twoChunkStore_valid rfl (by decide +kernel)
    ⟨rfl, by decide, by decide, fun _ _ _ _ => away⟩

/-- The header of the item is moved: the value and the flags stay, and the token does not. -/
theorem token_changed :
    twoChunkStore.gets [107] = some ⟨[1, 2, 3], 7, 1⟩ ∧
    Rescues twoChunkStore.server 0 ⟨false, true, false⟩ ∧
    ∃ st', twoChunkStore.slabRebalanceMove 0 .header true false = .ok st' ∧
      st'.gets [107] = some ⟨[1, 2, 3], 7, 2⟩ := by
  refine ⟨by decide +kernel, by decide +kernel, _, rfl, by decide +kernel⟩

end Kvsev.Server
