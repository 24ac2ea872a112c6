import Mathlib.Data.List.Nodup
import Kvsev.Holders.Rules

/-!
# Reference counts are exact

The holders of an item are the connections that upload it, the unsent responses, the
entries of the bump buffers and the workers that have it in their hands. As long as
nobody comes between the read and the write of `mg` without the lock, and neither of
them falls into a section under the lock, every count is the number of holders, plus
one for the table, and the memory of an item is given back once, when nobody refers to
it any more.
-/

namespace Kvsev.Holders

open Memory Server Transition Counted

/-- The outstanding references to an item other than the table's. -/
def holders (y : System) (p : ItemPtr) : Nat :=
  y.uploads.countP (fun u => u.item = p) + y.server.pending.countP (· = p) +
    y.code.countP (fun c => c.item = some p) + y.bumps.countP (· = p)

/-- Nobody else has changed what `mg` without the lock is about to overwrite. -/
def Undisturbed (y : System) : Event → Prop
  | .advance w =>
    match y.code[w]? with
    | some (.setting p bits) => (y.server.heap p).linked = bits.linked
    | some (.decrementing p count) => (y.server.heap p).refcount = count + 1
    | _ => True
  | _ => True

instance (y : System) (e : Event) : Decidable (Undisturbed y e) := by
  unfold Undisturbed
  split
  · split <;> infer_instance
  · infer_instance

/-- What the counts are for. -/
structure ExactReferences (y : System) : Prop where
  /-- A count is the number of references. -/
  counted : ∀ p < y.server.next,
    (y.server.heap p).refcount = (y.server.heap p).linked.toNat + holders y p
  /-- Memory is given back once, and when there is no reference left. -/
  freed : ∀ p < y.server.next,
    (y.server.heap p).freed = if (y.server.heap p).linked.toNat + holders y p = 0 then 1 else 0
  /-- The table refers to what is marked as linked. -/
  listed : ∀ p < y.server.next,
    (y.server.heap p).linked = true ↔ y.server.assoc (y.server.heap p).key = some p
  /-- Nobody refers to memory that is not an item's. -/
  allocated : ∀ p, y.server.next ≤ p → holders y p = 0

/-! ## How the accounts change -/

theorem holders_congr {y y' : System} (uploads : y'.uploads = y.uploads)
    (pending : y'.server.pending = y.server.pending) (code : y'.code = y.code)
    (bumps : y'.bumps = y.bumps) : holders y' = holders y := by
  funext p
  simp only [holders, uploads, pending, code, bumps]

theorem holders_server {y : System} {s : State} (pending : s.pending = y.server.pending) :
    holders { y with server := s } = holders y :=
  holders_congr rfl pending rfl rfl

section

variable {y : System} {w : Nat} {pc pc' : Pc} {p : ItemPtr}

section

variable (here : y.code[w]? = some pc)

include here

/-- A worker goes from one place in its code to another. -/
theorem holders_moveTo (pc' : Pc) (q : ItemPtr) :
    holders (y.moveTo w pc') q + (if pc.item = some q then 1 else 0) =
      holders y q + if pc'.item = some q then 1 else 0 := by
  have moved := countP_set (f := fun c : Pc => c.item = some q) here pc'
  simp only [decide_eq_true_eq] at moved
  simp only [holders, System.moveTo]
  omega

theorem holders_keep (same : pc'.item = pc.item) : holders (y.moveTo w pc') = holders y := by
  funext q
  have moved := holders_moveTo here pc' q
  rw [same] at moved
  omega

/-- The worker takes an item into its hands. -/
theorem holders_take (empty : pc.item = none)
    (taken : pc'.item = some p) : holders (y.moveTo w pc') = more (holders y) p := by
  funext q
  have moved := holders_moveTo here pc' q
  rw [empty, taken] at moved
  simp only [reduceCtorEq, if_false, Option.some.injEq, eq_comm (a := p)] at moved
  simpa [more] using moved

/-- The worker lets an item go. -/
theorem holders_drop (full : pc.item = some p)
    (empty : pc'.item = none) : holders y = more (holders (y.moveTo w pc')) p := by
  funext q
  have moved := holders_moveTo here pc' q
  rw [full, empty] at moved
  simp only [reduceCtorEq, if_false, Option.some.injEq, eq_comm (a := p)] at moved
  simpa [more] using moved.symm

/-- A response takes the item over from the worker. -/
theorem holders_respond (full : pc.item = some p) : holders (y.respond w p) = holders y := by
  funext q
  have moved := holders_moveTo here .idle q
  rw [full] at moved
  simp only [Pc.item, reduceCtorEq, if_false, Option.some.injEq] at moved
  simp only [holders, System.moveTo, System.respond, List.countP_append, List.countP_singleton,
    decide_eq_true_eq] at moved ⊢
  omega

end

/-- The worker takes an upload over from its connection. -/
theorem holders_takeUpload {u : Upload} {i : Nat} (here : y.code[w]? = some pc)
    (empty : pc.item = none) (upload : y.uploads[i]? = some u) :
    holders { y.moveTo w (.removing u.item) with uploads := y.uploads.eraseIdx i } = holders y := by
  funext q
  have moved := holders_moveTo here (.removing u.item) q
  have erased := countP_eraseIdx (f := fun u : Upload => u.item = q) upload
  rw [empty] at moved
  simp only [Pc.item, reduceCtorEq, if_false, Option.some.injEq, decide_eq_true_eq] at moved erased
  simp only [holders, System.moveTo] at moved ⊢
  omega

theorem holders_upload (u : Upload) :
    holders { y with uploads := y.uploads ++ [u] } = more (holders y) u.item := by
  funext q
  simp only [holders, more, List.countP_append, List.countP_singleton, decide_eq_true_eq,
    eq_comm (a := q)]
  omega

theorem holders_pending {y' : System} (uploads : y'.uploads = y.uploads)
    (pending : y'.server.pending = y.server.pending ++ [p]) (code : y'.code = y.code)
    (bumps : y'.bumps = y.bumps) : holders y' = more (holders y) p := by
  funext q
  simp only [holders, more, uploads, pending, code, bumps, List.countP_append,
    List.countP_singleton, decide_eq_true_eq, eq_comm (a := q)]
  omega

theorem holders_respFinish {i : Nat} (here : y.server.pending[i]? = some p) :
    holders y = more (holders
      { y with server := { y.server with pending := y.server.pending.eraseIdx i } }) p := by
  funext q
  have erased := countP_eraseIdx (f := fun r : ItemPtr => r = q) here
  simp only [decide_eq_true_eq, eq_comm (a := p)] at erased
  simp only [holders, more]
  omega

theorem holders_bumped {i : Nat} (here : y.bumps[i]? = some p) :
    holders y = more (holders { y with bumps := y.bumps.eraseIdx i }) p := by
  funext q
  have erased := countP_eraseIdx (f := fun r : ItemPtr => r = q) here
  simp only [decide_eq_true_eq, eq_comm (a := p)] at erased
  simp only [holders, more]
  omega

/-- A bump adds what `bumpedAccount` says. -/
theorem holders_doItemBump (y : System) (s : State) (p : ItemPtr) (bump : Bump) :
    holders { y with bumps := (doItemBump s y.bumps p bump).2 } =
      Accounted.bumpedAccount (holders y) p bump := by
  cases bump with
  | queued =>
    funext q
    simp only [doItemBump, lruBumpAsync, if_true, Accounted.bumpedAccount, holders, more,
      List.countP_append, List.countP_singleton, decide_eq_true_eq, eq_comm (a := q)]
    omega
  | _ => rfl

end

/-! ## The invariant -/

theorem ne_of_mem_eraseIdx {uploads : List Upload} (distinct : (uploads.map Upload.item).Nodup)
    {u v : Upload} {i : Nat} (here : uploads[i]? = some u) (mem : v ∈ uploads.eraseIdx i) :
    v.item ≠ u.item := by
  obtain ⟨j, ne, there⟩ := List.mem_eraseIdx_iff_getElem?.mp mem
  obtain ⟨ltj, rfl⟩ := List.getElem?_eq_some_iff.mp there
  obtain ⟨lti, rfl⟩ := List.getElem?_eq_some_iff.mp here
  intro same
  apply ne
  rw [← List.getElem_map Upload.item (h := by simpa using ltj),
    ← List.getElem_map Upload.item (h := by simpa using lti)] at same
  exact (List.Nodup.getElem_inj_iff distinct).mp same

/-- The counts are exact, and what is being uploaded is not in the table. -/
structure Inv (limit : Nat) (y : System) : Prop where
  accounted : Accounted (holders y) limit y.server
  distinct : (y.uploads.map Upload.item).Nodup
  free : ∀ u ∈ y.uploads, (y.server.heap u.item).linked = false

/-- No flag of an item outside the table was changed. -/
def StaysOut (s s' : State) : Prop :=
  ∀ q, q < s.next → (s.heap q).linked = false → (s'.heap q).linked = false

theorem staysOut_of_leavesFree {s s' : State} (leaves : LeavesFree (fun _ => False) s s') :
    StaysOut s s' := by
  intro q lt free
  rw [leaves.heap q lt id free]
  exact free

theorem StaysOut.trans {s s' s'' : State} (first : StaysOut s s') (le : s.next ≤ s'.next)
    (second : StaysOut s' s'') : StaysOut s s'' :=
  fun q lt free => second q (Nat.lt_of_lt_of_le lt le) (first q lt free)

theorem staysOut_modify (s : State) (p : ItemPtr) {f : Item → Item}
    (linked : (f (s.heap p)).linked = (s.heap p).linked) : StaysOut s (s.modify p f) := by
  intro q _ free
  by_cases same : q = p
  · subst q
    rw [State.modify_heap_self, linked]
    exact free
  · rw [State.modify_heap_of_ne f same]
    exact free

theorem staysOut_doItemBump (s : State) (bumps : List ItemPtr) (p : ItemPtr) (bump : Bump) :
    StaysOut s (doItemBump s bumps p bump).1 := by
  have taken : StaysOut s (refcountIncr s p) := staysOut_modify s p rfl
  cases bump with
  | none => exact fun _ _ free => free
  | time => exact staysOut_modify s p (f := fun it => { it with time := s.currentTime }) rfl
  | queued => exact taken
  | dropped =>
    have given : StaysOut (refcountIncr s p) (refcountDecr (refcountIncr s p) p) :=
      staysOut_modify _ p rfl
    exact taken.trans (Nat.le_refl _) given

theorem staysOut_doItemUnlink (s : State) (p : ItemPtr) : StaysOut s (doItemUnlink s p) := by
  intro q _ free
  by_cases same : q = p
  · subst q
    rw [doItemUnlink, if_neg (by simp [free])]
    exact free
  · rw [doItemUnlink_heap_of_ne s same]
    exact free

theorem staysOut_lruMaintainerBump (s : State) (p : ItemPtr) :
    StaysOut s (lruMaintainerBump s p) := by
  have updated : StaysOut s (doItemUpdate s p) := by
    unfold doItemUpdate
    split
    · exact staysOut_modify s p rfl
    · exact fun _ _ free => free
  have removed : StaysOut (doItemUpdate s p) (doItemRemove (doItemUpdate s p) p) :=
    staysOut_modify _ p rfl
  refine updated.trans ?_ removed
  unfold doItemUpdate
  split
  · exact Nat.le_refl _
  · exact Nat.le_refl _

theorem lruMaintainerBump_pending (s : State) (p : ItemPtr) :
    (lruMaintainerBump s p).pending = s.pending := by
  simp only [lruMaintainerBump, doItemUpdate]
  split
  · rfl
  · rfl

namespace Inv

variable {limit : Nat} {y y' : System} {w : Nat} {p : ItemPtr}

theorem mono {limit' : Nat} (inv : Inv limit y) (le : limit ≤ limit') : Inv limit' y :=
  { inv with accounted := inv.accounted.mono le }

protected theorem init (settings : Settings) (workers limit : Nat) :
    Inv limit (System.init settings workers) where
  accounted := by
    have none : holders (System.init settings workers) = fun _ => 0 := by
      funext p
      simp [holders, System.init, State.init, List.countP_replicate, Pc.item]
    rw [none]
    exact Accounted.init settings limit
  distinct := List.nodup_nil
  free := fun u mem => by cases mem

theorem holders_pos_of_upload {u : Upload} (mem : u ∈ y.uploads) : 0 < holders y u.item := by
  have : 0 < y.uploads.countP (fun v => v.item = u.item) :=
    List.countP_pos_iff.mpr ⟨u, mem, by simp⟩
  simp only [holders]
  omega

theorem holders_pos_of_code {pc : Pc} (here : y.code[w]? = some pc) (full : pc.item = some p) :
    0 < holders y p := by
  have : 0 < y.code.countP (fun c => c.item = some p) :=
    List.countP_pos_iff.mpr ⟨pc, List.mem_of_getElem? here, by simp [full]⟩
  simp only [holders]
  omega

/-- Steps that leave the uploads alone. -/
theorem of_same (inv : Inv limit y) {held : ItemPtr → Nat} (uploads : y'.uploads = y.uploads)
    (out : StaysOut y.server y'.server) (account : holders y' = held)
    (accounted : Accounted held limit y'.server) : Inv limit y' := by
  refine ⟨account ▸ accounted, uploads ▸ inv.distinct, fun u mem => ?_⟩
  rw [uploads] at mem
  exact out u.item (inv.accounted.lt_of_held (holders_pos_of_upload mem)) (inv.free u mem)

/-- Steps of the server alone. -/
theorem ofServer (inv : Inv limit y) {s : State}
    (next : Settled (holders y) limit y.server s) :
    Inv limit { y with server := s } :=
  inv.of_same rfl (staysOut_of_leavesFree next.2) (holders_server next.2.pending) next.1

/-- The worker goes on with the item in its hands. -/
theorem keep {pc pc' : Pc} (inv : Inv limit y) (here : y.code[w]? = some pc)
    (same : pc'.item = pc.item) : Inv limit (y.moveTo w pc') :=
  inv.of_same rfl (fun _ _ free => free) (holders_keep here same) inv.accounted

theorem takeUpload (inv : Inv limit y) (idle : y.code[w]? = some .idle) {u : Upload} {i : Nat}
    (here : y.uploads[i]? = some u) :
    Inv limit { y.moveTo w (.removing u.item) with uploads := y.uploads.eraseIdx i } := by
  have part : (y.uploads.eraseIdx i).Sublist y.uploads := List.eraseIdx_sublist _ i
  refine ⟨?_, inv.distinct.sublist (part.map _), fun v mem => inv.free v (part.subset mem)⟩
  rw [holders_takeUpload idle rfl here]
  exact inv.accounted

/-! ## Retrieval -/

section

variable (inv : Inv limit y) (room : ∀ q, holders y q + 3 ≤ limit)
  (idle : y.code[w]? = some .idle)

include room in
theorem room_two : ∀ q, holders y q + 2 ≤ limit := fun q => Nat.le_of_succ_le (room q)

include inv room

include idle in
theorem lookup (r : Reader) (key : Key) (touch : Option Nat) (bump : Bump) :
    Inv limit (lookup y w r key touch bump) := by
  simp only [Holders.lookup]
  rcases ran : doItemGet y.server key false with ⟨_ | p, s₁⟩
  · obtain ⟨⟨acc₁, leaves⟩, -⟩ := inv.accounted.doItemGet_miss (room_two room) ran
    exact inv.ofServer ⟨acc₁, leaves⟩
  obtain ⟨⟨acc₁, leaves⟩, linked, -⟩ := inv.accounted.doItemGet_hit (room_two room) ran
  dsimp only
  generalize (if r.updates then bump else Bump.none) = bump
  have holds : 0 < more (holders y) p p := by rw [more_self]; exact Nat.succ_pos _
  have acc₂ := (acc₁.doItemBump y.bumps bump (acc₁.lt_of_held holds) holds
    (by rw [more_self]; exact room p)).setExptime p touch
  have own : LeavesFree (· = p) s₁
      (setExptime (doItemBump s₁ y.bumps p bump).1 p touch) := by
    refine (Accounted.doItemBump_spares s₁ y.bumps bump ?_).trans
      (Accounted.setExptime_spares _ touch ?_)
    · rfl
    · rfl
  have spares := leaves.trans (own.weaken fun q _ same => .inr (same ▸ linked))
  have account : holders
      { y.moveTo w (.found r p) with
        server := setExptime (doItemBump s₁ y.bumps p bump).1 p touch
        bumps := (doItemBump s₁ y.bumps p bump).2 } =
      Accounted.bumpedAccount (more (holders y) p) p bump := by
    rw [← holders_take idle rfl (show (Pc.found r p).item = some p from rfl),
      ← holders_doItemBump (y.moveTo w (.found r p)) s₁]
    exact holders_congr rfl spares.pending rfl rfl
  exact inv.of_same rfl (staysOut_of_leavesFree spares) account acc₂

/-- `mg` goes on with an item it holds under the lock. -/
theorem mgetFound {s : State} (acc : Accounted (more (holders y) p) limit s)
    (leaves : LeavesFree (fun _ => False) y.server s) (linked : (s.heap p).linked = true)
    (created : Bool) (flags : List MetaFlag) (input : MetaInput) (bump : Bump) :
    Inv limit (mgetFound { y with server := s } p created flags input bump) := by
  have holds : 0 < more (holders y) p p := by rw [more_self]; exact Nat.succ_pos _
  have own : ∀ s', LeavesFree (· = p) s s' → LeavesFree (fun _ => False) s s' :=
    fun s' spares => spares.weaken fun q _ same => .inr (same ▸ linked)
  simp only [Holders.mgetFound]
  split
  · refine inv.ofServer ⟨acc.metaRefuse created flags input, leaves.trans (own _ ?_)⟩
    apply Accounted.metaRefuse_spares
    rfl
  generalize (if flags.contains .noUpdate then Bump.none else bump) = bump
  generalize ({ input with bump := false } : MetaInput) = input
  obtain ⟨s₁, answered, spares⟩ :=
    @Accounted.metaHit_spares p s created flags input (· = p) rfl
  have acc₁ := acc.metaHit p created flags input
  have out : StaysOut s (metaHit s p created flags input).2 := by
    rw [answered]
    exact fun q lt free => staysOut_of_leavesFree (own s₁ spares) q lt free
  have pending : (metaHit s p created flags input).2.pending = y.server.pending ++ [p] := by
    rw [answered, ← leaves.pending, ← spares.pending]
  have next : y.server.next ≤ (metaHit s p created flags input).2.next := by
    rw [answered]
    exact Nat.le_trans leaves.next spares.next
  generalize (metaHit s p created flags input).2 = s₂ at acc₁ out pending next ⊢
  have bumped := LeavesFree.pending
    (@Accounted.doItemBump_spares p s₂ y.bumps bump (fun _ => True) trivial)
  have account : holders
      { y with server := (doItemBump s₂ y.bumps p bump).1
               bumps := (doItemBump s₂ y.bumps p bump).2 } =
      Accounted.bumpedAccount (more (holders y) p) p bump := by
    have answer : holders { y with server := s₂ } = more (holders y) p :=
      holders_pending rfl pending rfl rfl
    rw [← answer, ← holders_doItemBump { y with server := s₂ } s₂]
    exact holders_congr rfl bumped rfl rfl
  refine inv.of_same rfl (((staysOut_of_leavesFree leaves).trans leaves.next out).trans next
    (staysOut_doItemBump s₂ y.bumps p bump)) account ?_
  exact acc₁.doItemBump y.bumps bump (acc₁.lt_of_held holds) holds
    (by rw [more_self]; exact room p)

theorem mgetLocked (key : Key) (flags : List MetaFlag) (input : MetaInput) (bump : Bump) :
    Inv limit (mgetLocked y key flags input bump) := by
  simp only [Holders.mgetLocked]
  rcases ran : doItemGet y.server key false with ⟨_ | p, s₁⟩
  · obtain ⟨⟨acc₁, leaves⟩, absent⟩ := inv.accounted.doItemGet_miss (room_two room) ran
    dsimp only
    split
    · rcases alloc : doItemAlloc s₁ key 0 0 2 input.alloc with ⟨_ | p, s₂⟩
      · obtain rfl := doItemAlloc_none alloc
        exact inv.ofServer ⟨acc₁, leaves⟩
      obtain ⟨rfl, acc₂, free, owned, assoc, -, -⟩ := acc₁.doItemAlloc alloc
      dsimp only
      have acc₃ := acc₂.modify_same s₁.next
        (f := fun it => { it with data := [13, 10] })
        ⟨rfl, rfl, rfl, rfl, rfl⟩
      have missing : s₂.assoc (s₂.heap s₁.next).key = none := by
        rw [owned, assoc, absent]
      have acc₄ := acc₃.doItemLink (p := s₁.next)
        (by rw [more_self]; exact Nat.succ_pos _)
        (by rw [State.modify_heap_self]; exact free)
        (by rw [State.modify_heap_self]; exact missing)
        (by rw [more_self]; exact Nat.le_trans (by omega) (room s₁.next))
      have made : ∀ f, LeavesFree (· = s₁.next) s₁
          (doItemLink (s₂.modify s₁.next f) s₁.next) := by
        intro f
        refine ((LeavesFree.doItemAlloc alloc).trans
          (LeavesFree.modify (.inr ?_) f)).trans (LeavesFree.doItemLink ?_)
        · rfl
        · rfl
      exact inv.mgetFound room acc₄ (leaves.trans ((made _).weaken
        fun q lt same => absurd (same ▸ lt) (Nat.lt_irrefl _)))
        (by simp [doItemLink]) true flags input bump
    · exact inv.ofServer ⟨acc₁, leaves⟩
  · obtain ⟨⟨acc₁, leaves⟩, linked, -⟩ := inv.accounted.doItemGet_hit (room_two room) ran
    dsimp only
    split
    · exact inv.ofServer ⟨acc₁.doItemRemove,
        leaves.trans (LeavesFree.doItemRemove (.inl linked))⟩
    · exact inv.mgetFound room acc₁ leaves linked false flags input bump

include idle

theorem mget (key : Key) (flags : List MetaFlag) (input : MetaInput) (bump : Bump) :
    Inv limit (mget y w key flags input bump) := by
  simp only [Holders.mget]
  split
  · exact inv
  · split
    · exact inv.mgetLocked room key flags input bump
    · exact inv.lookup room idle (.mget flags) key none bump

/-! ## Uploads -/

theorem upload (protocol : Protocol) (comm : Nread) (req : StoreRequest) :
    Inv limit (upload y w protocol comm req) := by
  refine upload_rule inv ?_ (fun key => ?_) fun key => inv.keep idle rfl
  · intro req data item s comm ran
    obtain ⟨rfl, acc, free, leaves⟩ := inv.accounted.uploadItem ran
    have older : ∀ u ∈ y.uploads, u.item < y.server.next :=
      fun u mem => inv.accounted.lt_of_held (holders_pos_of_upload mem)
    refine ⟨?_, ?_, ?_⟩
    · have account : holders
          { y with server := s
                   uploads := y.uploads ++ [⟨y.server.next, comm, req, protocol⟩] } =
          more (holders y) y.server.next := by
        rw [← holders_upload ⟨y.server.next, comm, req, protocol⟩]
        exact holders_congr rfl leaves.pending rfl rfl
      rw [account]
      exact acc
    · simp only [List.map_append, List.map_cons, List.map_nil]
      refine List.nodup_append.mpr ⟨inv.distinct, List.nodup_singleton _, ?_⟩
      rintro a old b new rfl
      obtain ⟨u, mem, rfl⟩ := List.mem_map.mp old
      exact Nat.ne_of_lt (older u mem) (List.mem_singleton.mp new)
    · intro u mem
      rcases List.mem_append.mp mem with old | new
      · exact staysOut_of_leavesFree leaves u.item (older u old) (inv.free u old)
      · obtain rfl := List.mem_singleton.mp new
        exact free
  · exact inv.ofServer (inv.accounted.getAndDrop (room_two room) key)

theorem complete (i : Nat) : Inv limit (complete y w i) := by
  simp only [Holders.complete]
  cases here : y.uploads[i]? with
  | none => exact inv
  | some u =>
    have taken := inv.takeUpload idle here
    dsimp only
    split
    · exact taken
    have account := holders_takeUpload idle rfl here
    have mine : 0 < holders
        { y.moveTo w (.removing u.item) with uploads := y.uploads.eraseIdx i } u.item := by
      rw [account]
      exact holders_pos_of_upload (List.mem_of_getElem? here)
    obtain ⟨acc, leaves⟩ := taken.accounted.doStoreItem u.comm u.req.setStale u.req.copy mine
      (inv.free u (List.mem_of_getElem? here))
      (fun q => by rw [account]; exact Nat.le_of_succ_le (room q))
    refine ⟨?_, taken.distinct, fun v mem => ?_⟩
    · have same := holders_server leaves.pending
      exact same ▸ acc
    · have old := taken.accounted.lt_of_held (holders_pos_of_upload mem)
      have free := taken.free v mem
      rw [leaves.heap v.item old (ne_of_mem_eraseIdx inv.distinct here mem) free]
      exact free

end

theorem abandon (inv : Inv limit y) (idle : y.code[w]? = some .idle) (i : Nat) :
    Inv limit (abandon y w i) := by
  simp only [Holders.abandon]
  cases here : y.uploads[i]? with
  | none => exact inv
  | some u => exact inv.takeUpload idle here

/-! ## The steps in between -/

theorem respond {pc : Pc} (inv : Inv limit y) (here : y.code[w]? = some pc)
    (full : pc.item = some p) : Inv limit (y.respond w p) :=
  inv.of_same rfl (fun _ _ free => free) (holders_respond here full)
    (inv.accounted.of_same rfl rfl rfl)

theorem read {r : Reader} (inv : Inv limit y) (here : y.code[w]? = some (.reading r p)) :
    Inv limit (read y w r p) := by
  cases r with
  | get returnCas | binary => exact inv.respond here rfl
  | debug | touch => exact inv.keep here rfl
  | mget flags =>
    simp only [Holders.read]
    split
    · exact inv.keep here rfl
    · split
      · exact inv.keep here rfl
      · exact inv.respond here rfl

/-- A worker that is done gives its item back. -/
theorem giveBack {pc : Pc} (inv : Inv limit y) (here : y.code[w]? = some pc)
    (full : pc.item = some p) :
    Inv limit { y.moveTo w .idle with server := doItemRemove y.server p } := by
  have out : StaysOut y.server (doItemRemove y.server p) := staysOut_modify _ p rfl
  have dropped : holders y = more (holders (y.moveTo w .idle)) p := holders_drop here full rfl
  have acc := inv.accounted
  rw [dropped] at acc
  exact inv.of_same rfl out (holders_congr rfl rfl rfl rfl) acc.doItemRemove

/-- Where the item is linked as it was before, the write changes the marks only. -/
theorem setTokenSent {bits : Bits} (inv : Inv limit y)
    (same : (y.server.heap p).linked = bits.linked) :
    Inv limit { y with server := setTokenSent y.server p bits } := by
  have out : StaysOut y.server (Holders.setTokenSent y.server p bits) :=
    staysOut_modify _ p same.symm
  refine inv.of_same rfl out (holders_server rfl) ?_
  exact inv.accounted.modify_same p
    (f := fun it => { it with linked := bits.linked, stale := bits.stale, tokenSent := true })
    ⟨rfl, same.symm, rfl, rfl, rfl⟩

/-- A `set` that got no memory looks up what it is going to drop. -/
theorem clearing {key : Key} (inv : Inv limit y) (here : y.code[w]? = some (.clearing key))
    (room : ∀ q, holders y q + 2 ≤ limit) :
    Inv limit (match doItemGet y.server key false with
      | (none, server) => { y.moveTo w .idle with server }
      | (some p, server) => { y.moveTo w (.unlinking p) with server }) := by
  rcases ran : doItemGet y.server key false with ⟨_ | p, s⟩
  · obtain ⟨⟨acc₁, leaves⟩, -⟩ := inv.accounted.doItemGet_miss room ran
    have account := holders_keep here (show Pc.idle.item = _ from rfl)
    have idle := inv.keep here (show Pc.idle.item = _ from rfl)
    exact idle.ofServer ⟨account ▸ acc₁, leaves⟩
  · obtain ⟨⟨acc₁, leaves⟩, -⟩ := inv.accounted.doItemGet_hit room ran
    rw [← holders_take here rfl (show (Pc.unlinking p).item = some p from rfl)] at acc₁
    exact inv.of_same rfl (staysOut_of_leavesFree leaves)
      (holders_server (y := y.moveTo w (.unlinking p)) leaves.pending) acc₁

section

variable (inv : Inv limit y)

include inv

theorem unlinking (here : y.code[w]? = some (.unlinking p)) :
    Inv limit { y.moveTo w (.removing p) with server := doItemUnlink y.server p } := by
  have acc := inv.accounted.doItemUnlink (holders_pos_of_code here rfl)
  rw [← holders_keep here (show (Pc.removing p).item = _ from rfl)] at acc
  exact inv.of_same rfl (staysOut_doItemUnlink _ p)
    (holders_server (y := y.moveTo w (.removing p)) (doItemUnlink_pending _ p)) acc

theorem advance (room : ∀ q, holders y q + 3 ≤ limit)
    (cond : Undisturbed y (.advance w)) : Inv limit (advance y w) := by
  have room₂ := room_two room
  simp only [Holders.advance, Undisturbed] at cond ⊢
  cases here : y.code[w]? with
  | none => exact inv
  | some pc =>
    rw [here] at cond
    cases pc with
    | idle => exact inv
    | found r p =>
      dsimp only
      split
      · exact inv.keep here rfl
      · exact inv.keep here rfl
    | reading r p => exact inv.read here
    | marking p => exact inv.keep here rfl
    | setting p bits =>
      have set := inv.setTokenSent cond
      exact set.respond (y := { y with server := Holders.setTokenSent y.server p bits }) here
        rfl
    | removing p => exact inv.giveBack here rfl
    | clearing key => exact inv.clearing here room₂
    | unlinking p => exact inv.unlinking here
    | refusing p => exact inv.keep here rfl
    | decrementing p count =>
      have same : writeRefcount y.server p count = doItemRemove y.server p := by
        simp only [writeRefcount, doItemRemove, State.modify, cond, Nat.add_sub_cancel]
      dsimp only
      rw [same]
      exact inv.giveBack here rfl

theorem respFinish (i : Nat) : Inv limit (respFinish y i) := by
  simp only [Holders.respFinish]
  cases here : y.server.pending[i]? with
  | none => exact inv
  | some p =>
    have sent : StaysOut y.server
        (doItemRemove { y.server with pending := y.server.pending.eraseIdx i } p) :=
      staysOut_modify { y.server with pending := y.server.pending.eraseIdx i } p rfl
    have acc := inv.accounted
    rw [holders_respFinish here] at acc
    have acc₁ : Accounted _ limit { y.server with pending := y.server.pending.eraseIdx i } :=
      acc.of_same rfl rfl rfl
    have account : holders
        { y with server := doItemRemove
                  { y.server with pending := y.server.pending.eraseIdx i } p } =
        holders { y with server := { y.server with pending := y.server.pending.eraseIdx i } } :=
      holders_congr rfl rfl rfl rfl
    exact inv.of_same rfl sent account acc₁.doItemRemove

theorem bumped (i : Nat) : Inv limit (bumped y i) := by
  simp only [Holders.bumped]
  cases here : y.bumps[i]? with
  | none => exact inv
  | some p =>
    have acc := inv.accounted
    rw [holders_bumped here] at acc
    exact inv.of_same rfl (staysOut_lruMaintainerBump _ p)
      (holders_server (y := { y with bumps := y.bumps.eraseIdx i })
        (lruMaintainerBump_pending _ p)) acc.lruMaintainerBump

theorem command_rule (room : ∀ q, holders y q + 3 ≤ limit) (command : Atomic) :
    Settled (holders y) limit y.server (command.run y.server) := by
  have room₂ := room_two room
  cases command with
  | delete key => exact inv.accounted.processDeleteCommand room₂ key
  | binDelete key cas => exact inv.accounted.processBinDelete room₂ key cas
  | mdelete key flags => exact inv.accounted.processMdeleteCommand room₂ key flags
  | arithmetic req => exact inv.accounted.doAddDelta req room₂
  | marithmetic req vivify => exact inv.accounted.processMarithmeticCommand req vivify room

theorem chore_rule (room : ∀ q, holders y q + 3 ≤ limit) (chore : Chore) :
    Settled (holders y) limit y.server (chore.run y.server) := by
  have room₂ := room_two room
  cases chore with
  | tick =>
    exact ⟨inv.accounted.of_same rfl rfl rfl, Nat.le_refl _, fun _ _ _ _ => rfl, rfl⟩
  | flushAll newOldest => exact inv.accounted.flushAll newOldest
  | pullTail p evict => exact inv.accounted.lruPullTail p evict (room₂ p)
  | crawl p kind => exact inv.accounted.itemCrawler p kind (room₂ p)
  | crawlHash p => exact inv.accounted.itemCrawlHash p (room₂ p)

end

/-- Every step keeps the counts exact. -/
theorem step (inv : Inv limit y) (room : ∀ q, holders y q + 3 ≤ limit) {e : Event}
    (cond : Undisturbed y e) (ran : step y e = .ok y') : Inv limit y' := by
  cases next_of_step ran with
  | stay => exact inv
  | lookup idle r key touch bump => exact inv.lookup room idle r key touch bump
  | mget idle key flags input bump => exact inv.mget room idle key flags input bump
  | upload idle protocol comm req => exact inv.upload room idle protocol comm req
  | complete idle i => exact inv.complete room idle i
  | abandon idle i => exact inv.abandon idle i
  | command w command => exact inv.ofServer (inv.command_rule room command)
  | advance w => exact inv.advance room cond
  | respFinish i => exact inv.respFinish i
  | bumped i => exact inv.bumped i
  | chore chore => exact inv.ofServer (inv.chore_rule room chore)

/-- There is always room for more holders than there are now. -/
theorem room (y : System) (n : Nat) : ∃ limit, ∀ q, holders y q + n ≤ limit := by
  refine ⟨y.uploads.length + y.server.pending.length + y.code.length + y.bumps.length + n, ?_⟩
  intro q
  have := y.uploads.countP_le_length (p := fun u => decide (u.item = q))
  have := y.server.pending.countP_le_length (p := fun r => decide (r = q))
  have := y.code.countP_le_length (p := fun c => decide (c.item = some q))
  have := y.bumps.countP_le_length (p := fun r => decide (r = q))
  simp only [holders]
  omega

theorem exactReferences (inv : Inv limit y) : ExactReferences y where
  counted := fun p lt => inv.accounted.refcount_eq lt
  freed := fun p lt => by
    rw [← inv.accounted.refcount_eq lt]
    exact (inv.accounted.exact p).freed (by simpa [entry] using lt)
  listed := fun p _ => ⟨inv.accounted.listed p, inv.accounted.table.linked _ p⟩
  allocated := fun p le => (inv.accounted.exact p).unknown (by simpa [entry] using le)

theorem linked_of_setting {bits : Bits} (inv : Inv limit y)
    (here : y.code[w]? = some (.setting p bits)) (exact : ExactReferences (Holders.advance y w)) :
    Undisturbed y (.advance w) := by
  have lt := inv.accounted.lt_of_held (holders_pos_of_code here rfl)
  have before := inv.accounted.refcount_eq lt
  simp only [Holders.advance, here] at exact
  have after := exact.counted p lt
  have same : holders ({ y with server := Holders.setTokenSent y.server p bits }.respond w p) =
      holders y :=
    (holders_respond (y := { y with server := Holders.setTokenSent y.server p bits }) here
      rfl).trans
      (holders_server rfl)
  rw [same] at after
  simp only [System.respond, Holders.setTokenSent, State.modify_heap_self] at after
  simp only [Undisturbed, here]
  have numbers : (y.server.heap p).linked.toNat = bits.linked.toNat := by omega
  revert numbers
  generalize (y.server.heap p).linked = linked
  cases linked <;> cases bits.linked <;> decide

theorem refcount_of_decrementing {count : Nat} (inv : Inv limit y)
    (here : y.code[w]? = some (.decrementing p count))
    (exact : ExactReferences (Holders.advance y w)) : Undisturbed y (.advance w) := by
  have lt := inv.accounted.lt_of_held (holders_pos_of_code here rfl)
  have before := inv.accounted.refcount_eq lt
  simp only [Holders.advance, here] at exact
  have after := exact.counted p lt
  have same := holders_server (y := y.moveTo w .idle) (s := writeRefcount y.server p count) rfl
  rw [same] at after
  rw [holders_drop here rfl (show Pc.idle.item = none from rfl), more_self] at before
  simp only [writeRefcount, State.modify_heap_self] at after
  simp only [Undisturbed, here]
  omega

/-- A write that was disturbed makes a count wrong. -/
theorem undisturbed (inv : Inv limit y) {e : Event} (ran : Holders.step y e = .ok y')
    (exact : ExactReferences y') : Undisturbed y e := by
  cases e with
  | advance w =>
    obtain rfl := Except.ok.inj ran
    cases here : y.code[w]? with
    | none => simp only [Undisturbed, here]
    | some pc =>
      cases pc with
      | setting p bits =>
        exact inv.linked_of_setting here exact
      | decrementing p count =>
        exact inv.refcount_of_decrementing here exact
      | _ => simp only [Undisturbed, here]
  | _ => trivial

end Inv

theorem step_returns (y : System) (e : Event) : ∃ y', step y e = .ok y' := by
  cases e with
  | lookup w r key touch bump =>
    cases r with
    | _ => exact ⟨_, rfl⟩
  | _ => exact ⟨_, rfl⟩

/-! ## Interleavings -/

/-- The counts are exact all along a run in which no access without the lock falls into a
section under the lock, exactly if nobody disturbs an `mg` that goes without the lock. -/
theorem exactReferences_throughout_iff (settings : Settings) (workers : Nat) (ms : List Moment)
    (apart : Moment.Apart ms) :
    Throughout Moment.step ExactReferences (System.init settings workers) ms ↔
      Meets Moment.step (fun y m => Undisturbed y m.event) (System.init settings workers) ms := by
  obtain ⟨events, rfl⟩ := apart.exists_events
  rw [throughout_map fun _ _ => rfl, meets_map fun _ _ => rfl]
  refine throughout_iff_meets (I := fun y => ∃ limit, Inv limit y) ?_ ?_ ?_ ?_
    ⟨0, Inv.init settings workers 0⟩
  · rintro y e -
    exact step_returns y e
  · rintro y ⟨limit, inv⟩
    exact inv.exactReferences
  · rintro y e y' ⟨limit, inv⟩ cond ran
    obtain ⟨more, room⟩ := Inv.room y 3
    exact ⟨max limit more, (inv.mono (Nat.le_max_left _ _)).step
      (fun q => Nat.le_trans (room q) (Nat.le_max_right _ _)) cond ran⟩
  · rintro y e y' ⟨limit, inv⟩ ran exact
    exact inv.undisturbed ran exact

/-- Two workers serve `mg k` without the lock and `get k` at the same time. -/
def sharedKey : List Event :=
  [.upload 0 .text .set (plainRequest [107] [49, 13, 10]), .complete 0 0, .advance 0,
    .mget 0 [107] [.opaqueToken (List.replicate 33 79)] ⟨none, false, false⟩ .none,
    .lookup 1 (.get false) [107] none .none, .advance 0, .advance 1, .advance 0, .advance 1,
    .advance 0, .advance 0, .command 1 (.delete [107]), .respFinish 0]

theorem exactReferences_throughout_shared :
    Throughout Moment.step ExactReferences (System.init defaultSettings 2)
      (sharedKey.map .alone) := by
  apply (exactReferences_throughout_iff _ _ _ (Moment.apart_map sharedKey)).mpr
  decide +kernel

/-- One worker refuses `mg k` with an opaque token of 33 letters while another serves
`get k`, and then `delete k` comes in. -/
def refusedMget : List Event :=
  [.upload 0 .text .set (plainRequest [107] [49, 13, 10]), .complete 0 0, .advance 0,
    .mget 0 [107] [.opaqueToken (List.replicate 33 79)] ⟨none, false, false⟩ .none,
    .advance 0, .advance 0, .advance 0,
    .lookup 1 (.get false) [107] none .none, .advance 1, .advance 1,
    .advance 0, .command 0 (.delete [107])]

/-- The decrement without the lock undoes the increment of `get`, and the memory is
given back while the response still refers to the item. -/
theorem refused_frees_pending :
    ∃ y, run Moment.step (System.init defaultSettings 2) (refusedMget.map .alone) = .ok y ∧
      y.server.pending = [0] ∧ holders y 0 = 1 ∧ (y.server.heap 0).refcount = 0 ∧
      (y.server.heap 0).freed = 1 ∧ ¬ExactReferences y := by
  have facts : (do
      let y ← run Moment.step (System.init defaultSettings 2) (refusedMget.map .alone)
      return (y.server.pending, holders y 0, (y.server.heap 0).refcount, (y.server.heap 0).freed,
        y.server.next)) = (.ok ([0], 1, 0, 1, 1) : Exec _) := by
    decide +kernel
  obtain ⟨y, ran, facts⟩ := Exec.bind_eq_ok.mp facts
  simp only [Exec.pure_eq_ok, Except.ok.injEq, Prod.mk.injEq] at facts
  obtain ⟨pending, held, count, freed, next⟩ := facts
  refine ⟨y, ran, pending, held, count, freed, fun exact => ?_⟩
  have counted := exact.counted 0 (by rw [next]; exact Nat.one_pos)
  omega

end Kvsev.Holders
