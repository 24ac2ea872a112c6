import Kvsev.Holders.Exact
import Kvsev.Server.Ages
import Kvsev.Server.Tokens

/-!
# Uniques in the system of threads

Every step of the system renews the table of stamped items, whoever takes it and
whatever the others have in their hands. What a connection uploads stays outside the
table and keeps the unique of its request, and what a worker has looked up is either
still in the table or has been superseded by something with another unique, unless
`incr` or `decr` has replaced it meanwhile.
-/

namespace Kvsev.Holders

open Server Stamped

/-- The items a step is about. -/
def targets (y : System) : Event → Targets
  | .command _ (.arithmetic req) =>
    { Targets.none with replaced := (y.server.assoc req.key = some ·) }
  | .command _ (.marithmetic req _) =>
    { Targets.none with replaced := (y.server.assoc req.key = some ·) }
  | .command _ (.mdelete key flags) =>
    { Targets.none with cleared := fun p => flags.setStale = true ∧ y.server.assoc key = some p }
  | .complete _ i =>
    { Targets.none with linked := fun p => ∃ u, y.uploads[i]? = some u ∧ p = u.item }
  | _ => Targets.none

/-- What a worker reads, and why. -/
def Pc.reader : Pc → Option (Reader × ItemPtr)
  | found r p | reading r p => some (r, p)
  | _ => none

section

variable {timed : Prop} {n : ItemPtr} {t : Targets} {b : Bool} {y y' : System} {w : Nat}

theorem acts_lookup (r : Reader) (key : Key) (touch : Option Nat) (bump : Bump) :
    Acts n t b y.server (lookup y w r key touch bump).server := by
  simp only [lookup]
  rcases ran : doItemGet y.server key false with ⟨_ | p, s₁⟩
  · exact (Acts.doItemGet ran).1
  · obtain ⟨got, found⟩ := Acts.doItemGet (n := n) (t := t) (b := b) ran
    obtain ⟨-, -, alive⟩ := found p rfl
    exact (got.andThen (.doItemBump y.bumps _ (.inl (alive rfl)))).andThen (.setExptime _ p touch)

/-- A hit of `mg` under the lock, of an item it has found or made. -/
theorem acts_mgetFound {p : ItemPtr} (alive : Hittable y.server p) (created : Bool)
    (flags : List MetaFlag) (input : MetaInput) (bump : Bump) :
    Acts n t b y.server (mgetFound y p created flags input bump).server := by
  simp only [mgetFound]
  split
  · exact .metaRefuse y.server p created flags input
  · exact (Acts.metaHit y.server p created flags input).andThen
      (.doItemBump y.bumps _ (Acts.hittable_metaHit alive created flags input))

theorem acts_mgetLocked (le : n ≤ y.server.next) (key : Key) (flags : List MetaFlag)
    (input : MetaInput) (bump : Bump) :
    Acts n t true y.server (mgetLocked y key flags input bump).server := by
  simp only [mgetLocked]
  rcases ran : doItemGet y.server key false with ⟨_ | p, s₁⟩
  · have got : Acts n t false y.server s₁ := (Acts.doItemGet ran).1
    dsimp only
    split
    · rcases alloc : doItemAlloc s₁ key 0 0 2 input.alloc with ⟨_ | p, s₂⟩
      · obtain rfl := doItemAlloc_none alloc
        exact got.upTo
      · obtain ⟨rfl, lt⟩ := Acts.lt_next_modify alloc fun it => { it with data := [13, 10] }
        have linked := (got.quiet (.written alloc fun it => { it with data := [13, 10] })).fresh
          (.link (.inr (Nat.le_trans le got.next)) lt)
        exact linked.andThen (acts_mgetFound (y := { y with server := _ })
          (.inr (doItemLink_time _ _)) true flags input bump)
    · exact got.upTo
  · obtain ⟨got, found⟩ := Acts.doItemGet (n := n) (t := t) (b := true) ran
    obtain ⟨-, -, alive⟩ := found p rfl
    dsimp only
    split
    · exact got.remove p
    · exact got.andThen (acts_mgetFound (y := { y with server := s₁ }) (.inl (alive rfl)) false
        flags input bump)

theorem acts_mget (le : n ≤ y.server.next) (key : Key) (flags : List MetaFlag)
    (input : MetaInput) (bump : Bump) :
    Acts n t true y.server (mget y w key flags input bump).server := by
  simp only [mget]
  split
  · exact .refl _
  · split
    · exact acts_mgetLocked le key flags input bump
    · exact acts_lookup (.mget flags) key none bump

theorem acts_upload (protocol : Protocol) (comm : Nread) (req : StoreRequest) :
    Acts n t b y.server (upload y w protocol comm req).server :=
  upload_rule (P := fun y' => Acts n t b y.server y'.server) (.refl _)
    (fun _ ran => .uploadItem ran) (fun key => .of_sheds (.dropOnFailedAlloc _ key .set))
    fun _ => .refl _

theorem acts_complete {i : Nat} (le : n ≤ y.server.next)
    (old : ∀ u ∈ y.uploads, u.item < y.server.next) :
    Acts n (targets y (.complete w i)) true y.server (complete y w i).server := by
  simp only [complete]
  cases here : y.uploads[i]? with
  | none => exact .refl _
  | some u =>
    dsimp only
    split
    · exact .refl _
    · have own : (targets y (.complete w i)).linked u.item := ⟨u, here, rfl⟩
      exact .doStoreItem (.inl own) (old u (List.mem_of_getElem? here)) le u.comm u.req.setStale
        u.req.copy

theorem acts_command (le : n ≤ y.server.next)
    (old : ∀ key p, y.server.assoc key = some p → p < y.server.next) (command : Atomic) :
    Acts n (targets y (.command w command)) true y.server (command.run y.server) := by
  cases command with
  | delete key => exact .of_sheds (.processDeleteCommand _ key)
  | binDelete key cas => exact .of_sheds (.processBinDelete _ key cas)
  | mdelete key flags => exact .processMdeleteCommand flags fun q stale found => ⟨stale, found⟩
  | arithmetic req =>
    exact Acts.doAddDelta le (fun q found => ⟨found, old _ q found⟩) (.inl rfl)
  | marithmetic req vivify =>
    exact Acts.processMarithmeticCommand le (fun q found => ⟨found, old _ q found⟩) vivify

theorem acts_read (r : Reader) (p : ItemPtr) : Acts n t b y.server (read y w r p).server := by
  have answered : Acts n t b y.server (y.respond w p).server := .one (.fields rfl)
  cases r with
  | get returnCas | binary => exact answered
  | debug | touch => exact .refl _
  | mget flags =>
    simp only [read]
    split
    · exact .refl _
    · split
      · exact .refl _
      · exact answered

/-- Steps of a worker without the lock take no unique. -/
theorem acts_advance : Acts n t b y.server (advance y w).server := by
  simp only [advance]
  cases y.code[w]? with
  | none => exact .refl _
  | some pc =>
    cases pc with
    | idle => exact .refl _
    | found r p =>
      dsimp only
      split
      · exact .refl _
      · exact .refl _
    | reading r p => exact acts_read r p
    | marking p => exact .refl _
    | setting p bits =>
      have set : Acts n t b y.server (setTokenSent y.server p bits) :=
        .one (.mark p rfl rfl rfl rfl fun _ _ => rfl)
      exact set.quiet (.fields rfl)
    | removing p => exact (Acts.refl _).remove p
    | clearing key =>
      dsimp only
      rcases ran : doItemGet y.server key false with ⟨_ | p, s⟩
      · exact (Acts.doItemGet ran).1
      · exact (Acts.doItemGet ran).1
    | unlinking p => exact .one (.unlink _ p)
    | refusing p => exact .refl _
    | decrementing p count =>
      have written : Acts n t b y.server (writeRefcount y.server p count) :=
        .one (.mark p rfl rfl rfl rfl fun _ marked => marked)
      exact written

theorem acts_respFinish (i : Nat) : Acts n t b y.server (respFinish y i).server := by
  simp only [respFinish]
  cases y.server.pending[i]? with
  | none => exact .refl _
  | some p =>
    have sent : Acts n t b y.server
        { y.server with pending := y.server.pending.eraseIdx i } := .one (.fields rfl)
    exact sent.remove p

/-- Time passes, there is a flush, or the LRU maintainer bumps an item. -/
def Chronicle.marksTime : Event → Bool
  | .bumped _ | .chore .tick | .chore (.flushAll _) => true
  | _ => false

theorem acts_step (old : ∀ u ∈ y.uploads, u.item < y.server.next)
    (table : ∀ key p, y.server.assoc key = some p → p < y.server.next) {e : Event}
    (plain : Chronicle.marksTime e = false) (ran : step y e = .ok y') :
    Acts y.server.next (targets y e) true y.server y'.server := by
  have le := Nat.le_refl y.server.next
  cases next_of_step ran with
  | stay => exact .refl _
  | lookup idle r key touch bump => exact acts_lookup r key touch bump
  | mget idle key flags input bump => exact acts_mget le key flags input bump
  | upload idle protocol comm req => exact acts_upload protocol comm req
  | complete idle i => exact acts_complete le old
  | abandon idle i =>
    unfold abandon
    split
    · exact .refl _
    · exact .refl _
  | command w command => exact acts_command le table command
  | advance w => exact acts_advance
  | respFinish i => exact acts_respFinish i
  | bumped i => cases plain
  | chore chore =>
    cases chore with
    | tick | flushAll newOldest => cases plain
    | pullTail p evict => exact .of_sheds (.lruPullTail _ p evict)
    | crawl p kind => exact .of_sheds (.itemCrawler _ p kind)
    | crawlHash p => exact .of_sheds (.itemCrawlHash _ p)

theorem step_renewed (wf : Tokened timed y.server) (issues : timed → Issues y.server)
    (old : ∀ u ∈ y.uploads, u.item < y.server.next) {e : Event} (ran : step y e = .ok y') :
    Renewed timed (targets y e) y.server y'.server := by
  cases plain : Chronicle.marksTime e with
  | false => exact .of_acts wf issues (acts_step old wf.old plain ran)
  | true =>
    cases next_of_step ran with
    | stay => exact (Quiet.refl _ wf).toRenewed
    | bumped i =>
      simp only [bumped]
      cases y.bumps[i]? with
      | none => exact (Quiet.refl _ wf).toRenewed
      | some p => exact (Quiet.lruMaintainerBump wf p).toRenewed
    | chore chore =>
      cases chore with
      | tick => exact Quiet.toRenewed (Quiet.of_fields wf rfl rfl rfl rfl rfl)
      | flushAll newOldest => exact Renewed.flushAll wf issues newOldest
      | _ => cases plain
    | _ => cases plain

/-! ## What the workers read -/

/-- Where the workers are after a step. One of them may have moved on: from being idle, or
because the step is its own. What it comes to read was in the table. -/
inductive Moves (y : System) (e : Event) (y' : System) : Prop
  | stay (same : y'.code = y.code)
  | move (w : Nat) (pc pc' : Pc) (here : y.code[w]? = some pc) (turn : pc = .idle ∨ e = .advance w)
      (reads : pc'.reader = none ∨ pc'.reader = pc.reader ∨
        ∃ r q key, pc'.reader = some (r, q) ∧ y.server.assoc key = some q)
      (code : y'.code = y.code.set w pc')

variable {e : Event}

theorem Moves.of_idle {pc : Pc} (idle : y.code[w]? = some .idle) (reads : pc.reader = none)
    (code : y'.code = y.code.set w pc) : Moves y e y' :=
  .move w .idle pc idle (.inl rfl) (.inl reads) code

theorem Moves.of_advance {pc pc' : Pc} (here : y.code[w]? = some pc)
    (reads : pc'.reader = none ∨ pc'.reader = pc.reader) (code : y'.code = y.code.set w pc') :
    Moves y (.advance w) y' := by
  refine .move w pc pc' here (.inr rfl) ?_ code
  rcases reads with none | same
  · exact .inl none
  · exact .inr (.inl same)

theorem moves_lookup (idle : y.code[w]? = some .idle) (r : Reader) (key : Key)
    (touch : Option Nat) (bump : Bump) : Moves y e (lookup y w r key touch bump) := by
  simp only [lookup]
  rcases ran : doItemGet y.server key false with ⟨_ | p, s₁⟩
  · exact .stay rfl
  · obtain ⟨-, inside⟩ := Acts.doItemGet (n := 0) (t := .none) (b := false) ran
    exact .move w .idle (.found r p) idle (.inl rfl)
      (.inr (.inr ⟨r, p, key, rfl, (inside p rfl).1⟩)) rfl

/-- `mg` under the lock is about the server and the bump buffers only. -/
theorem mgetFound_frame (y : System) (p : ItemPtr) (created : Bool) (flags : List MetaFlag)
    (input : MetaInput) (bump : Bump) :
    (mgetFound y p created flags input bump).code = y.code ∧
      (mgetFound y p created flags input bump).uploads = y.uploads := by
  simp only [mgetFound]
  split
  · exact ⟨rfl, rfl⟩
  · exact ⟨rfl, rfl⟩

theorem mgetLocked_frame (y : System) (key : Key) (flags : List MetaFlag) (input : MetaInput)
    (bump : Bump) : (mgetLocked y key flags input bump).code = y.code ∧
      (mgetLocked y key flags input bump).uploads = y.uploads := by
  simp only [mgetLocked]
  split
  · split
    · exact ⟨rfl, rfl⟩
    · exact mgetFound_frame _ _ _ _ _ _
  · split
    · split
      · exact mgetFound_frame _ _ _ _ _ _
      · exact ⟨rfl, rfl⟩
    · exact ⟨rfl, rfl⟩

theorem moves_upload (idle : y.code[w]? = some .idle) (protocol : Protocol) (comm : Nread)
    (req : StoreRequest) : Moves y e (upload y w protocol comm req) :=
  upload_rule (.stay rfl) (fun _ _ => .stay rfl) (fun _ => .stay rfl)
    fun _ => .of_idle idle rfl rfl

theorem moves_read {r : Reader} {p : ItemPtr} (here : y.code[w]? = some (.reading r p)) :
    Moves y (.advance w) (read y w r p) := by
  have answered : Moves y (.advance w) (y.respond w p) := .of_advance here (.inl rfl) rfl
  cases r with
  | get returnCas | binary => exact answered
  | debug | touch => exact .of_advance here (.inl rfl) rfl
  | mget flags =>
    simp only [read]
    split
    · exact .of_advance here (.inl rfl) rfl
    · split
      · exact .of_advance here (.inl rfl) rfl
      · exact answered

theorem moves_advance : Moves y (.advance w) (advance y w) := by
  simp only [advance]
  cases here : y.code[w]? with
  | none => exact .stay rfl
  | some pc =>
    cases pc with
    | idle => exact .stay rfl
    | found r p =>
      have same : (Pc.reading r p).reader = (Pc.found r p).reader := rfl
      dsimp only
      split
      · exact .of_advance here (.inl rfl) rfl
      · exact .of_advance here (.inr same) rfl
    | reading r p => exact moves_read here
    | clearing key =>
      dsimp only
      split
      · exact .of_advance here (.inl rfl) rfl
      · exact .of_advance here (.inl rfl) rfl
    | _ => exact .of_advance here (.inl rfl) rfl

theorem step_moves (ran : step y e = .ok y') : Moves y e y' := by
  cases next_of_step ran with
  | lookup idle r key touch bump => exact moves_lookup idle r key touch bump
  | mget idle key flags input bump =>
    simp only [mget]
    split
    · exact .stay rfl
    · split
      · exact .stay (mgetLocked_frame y key flags input bump).1
      · exact moves_lookup idle _ key none bump
  | upload idle protocol comm req => exact moves_upload idle protocol comm req
  | complete idle i =>
    simp only [complete]
    split
    · exact .stay rfl
    · split
      · exact .of_idle idle rfl rfl
      · exact .of_idle idle rfl rfl
  | abandon idle i =>
    simp only [abandon]
    split
    · exact .stay rfl
    · exact .of_idle idle rfl rfl
  | advance w => exact moves_advance
  | respFinish i =>
    simp only [respFinish]
    split
    · exact .stay rfl
    · exact .stay rfl
  | bumped i =>
    simp only [bumped]
    split
    · exact .stay rfl
    · exact .stay rfl
  | _ => exact .stay rfl

/-- What a worker reads after a step it has read before, or it was in the table. -/
theorem step_acquires (ran : step y e = .ok y') {w : Nat} {pc : Pc} {r : Reader}
    {q : ItemPtr} (here : y'.code[w]? = some pc) (reads : pc.reader = some (r, q)) :
    (∃ pc₀, y.code[w]? = some pc₀ ∧ pc₀.reader = some (r, q)) ∨
      ∃ key, y.server.assoc key = some q := by
  cases step_moves ran with
  | stay same => exact .inl ⟨pc, same ▸ here, reads⟩
  | move w' pc₀ pc' before turn comes code =>
    by_cases mine : w = w'
    · subst mine
      have inside := (List.getElem?_eq_some_iff.mp before).1
      rw [code, List.getElem?_set_self inside] at here
      obtain rfl := Option.some.inj here
      rcases comes with none | same | ⟨r', q', key, his, found⟩
      · rw [none] at reads
        cases reads
      · exact .inl ⟨pc₀, before, same ▸ reads⟩
      · rw [his] at reads
        cases reads
        exact .inr ⟨key, found⟩
    · rw [code, List.getElem?_set_ne (Ne.symm mine)] at here
      exact .inl ⟨pc, here, reads⟩

/-! ## What the connections upload -/

/-- An upload is outside the table and carries the unique of its request. -/
structure Private (timed : Prop) (s : State) (u : Upload) : Prop where
  old : u.item < s.next
  outside : ∀ key, s.assoc key ≠ some u.item
  cas : timed → (s.heap u.item).cas = u.req.cas
  key : (s.heap u.item).key = u.req.key

theorem Private.renewed {s s' : State} {u : Upload} (mine : Private timed s u)
    (ren : Renewed timed t s s') (spared : ¬t.linked u.item) : Private timed s' u := by
  obtain ⟨cas, outside⟩ := ren.renews.outside u.item mine.old spared mine.outside
  have key := ren.renews.key u.item mine.old
  simp only [itemStore] at cas key
  exact ⟨Nat.lt_of_lt_of_le mine.old ren.renews.next, outside,
    fun time => cas.trans (mine.cas time), key.trans mine.key⟩

/-- The uploads are private and of different items. -/
structure Uploading (timed : Prop) (y : System) : Prop where
  mine : ∀ u ∈ y.uploads, Private timed y.server u
  distinct : (y.uploads.map Upload.item).Nodup

theorem Uploading.of_same (up : Uploading timed y) (same : y'.uploads = y.uploads)
    (ren : Renewed timed t y.server y'.server) (none : ∀ p, ¬t.linked p) : Uploading timed y' where
  mine := fun u mem => (up.mine u (same ▸ mem)).renewed ren (none _)
  distinct := same ▸ up.distinct

/-- One of them comes to its end. -/
theorem Uploading.eraseIdx (up : Uploading timed y) {u : Upload} {i : Nat}
    (here : y.uploads[i]? = some u) (rest : y'.uploads = y.uploads.eraseIdx i)
    (ren : Renewed timed t y.server y'.server) (linked : ∀ p, t.linked p → p = u.item) :
    Uploading timed y' where
  mine := by
    intro v mem
    rw [rest] at mem
    refine (up.mine v (List.mem_of_mem_eraseIdx mem)).renewed ren fun target => ?_
    exact ne_of_mem_eraseIdx up.distinct here mem (linked _ target)
  distinct := by
    rw [rest]
    exact up.distinct.sublist ((List.eraseIdx_sublist _ i).map _)

theorem private_uploadItem {s s' : State} {req : StoreRequest} {data : List UInt8}
    {item : ItemPtr} (wf : Tokened timed s) (useCas : timed → s.settings.useCas = true)
    (ran : uploadItem s req data = (some item, s')) (comm : Nread) (protocol : Protocol) :
    item = s.next ∧ Private timed s' ⟨item, comm, req, protocol⟩ := by
  obtain ⟨s₁, alloc, rfl⟩ := uploadItem_alloc ran
  have frame := doItemAlloc_frame alloc
  obtain ⟨-, left, -, rfl, next, made⟩ := doItemAlloc_some alloc
  refine ⟨rfl, ?_, fun k found => ?_, fun time => ?_, ?_⟩
  · rw [State.modify_next, next]
    exact Nat.lt_succ_self _
  · rw [State.modify_assoc, frame] at found
    exact Nat.lt_irrefl _ (wf.old k _ found)
  · rw [State.modify_heap_self, frame]
    simp [itemSetCas, useCas time]
  · rw [State.modify_heap_self, made]
    simp [newItem]

theorem Uploading.upload (up : Uploading timed y) (wf : Tokened timed y.server)
    (useCas : timed → y.server.settings.useCas = true) (protocol : Protocol) (comm : Nread)
    (req : StoreRequest) : Uploading timed (upload y w protocol comm req) := by
  refine upload_rule up ?_ (fun key => ?_) fun _ => ⟨up.mine, up.distinct⟩
  · intro req data item s comm ran
    have made : Quiet timed .none y.server s := .of_acts wf (.uploadItem ran)
    have kept : Uploading timed { y with server := s } :=
      up.of_same rfl made.toRenewed fun _ none => none
    obtain ⟨rfl, mine⟩ := private_uploadItem wf useCas ran comm protocol
    refine ⟨fun u mem => ?_, ?_⟩
    · rcases List.mem_append.mp mem with old | new
      · exact kept.mine u old
      · obtain rfl := List.mem_singleton.mp new
        exact mine
    · simp only [List.map_append, List.map_cons, List.map_nil]
      refine List.nodup_append.mpr ⟨up.distinct, List.nodup_singleton _, ?_⟩
      rintro a old b new rfl
      obtain ⟨u, mem, rfl⟩ := List.mem_map.mp old
      exact Nat.ne_of_lt (up.mine u mem).old (List.mem_singleton.mp new)
  · have dropped : Quiet timed .none y.server (dropOnFailedAlloc y.server key .set) :=
      .of_acts wf (.of_sheds (.dropOnFailedAlloc _ key .set))
    exact up.of_same rfl dropped.toRenewed fun _ none => none

/-! ## Whole runs -/

/-- The table is well formed, uniques are in use, and the uploads are private. -/
structure Sound (timed : Prop) (y : System) : Prop where
  tokened : Tokened timed y.server
  useCas : timed → y.server.settings.useCas = true
  uploading : Uploading timed y

theorem Sound.init {settings : Settings} (useCas : timed → settings.useCas = true)
    (workers : Nat) : Sound timed (System.init settings workers) where
  tokened :=
    { old := fun _ _ found => nomatch found
      key := fun _ _ found => nomatch found
      stamped := fun _ _ _ found => nomatch found }
  useCas := useCas
  uploading :=
    { mine := fun _ mem => nomatch mem
      distinct := List.nodup_nil }

theorem Sound.renewed (sound : Sound timed y) (room : timed → y.server.casId + 1 < 2 ^ 64)
    {e : Event} (ran : step y e = .ok y') : Renewed timed (targets y e) y.server y'.server :=
  step_renewed sound.tokened (fun time => ⟨sound.useCas time, room time⟩)
    (fun u mem => (sound.uploading.mine u mem).old) ran

theorem uploads_lookup (r : Reader) (key : Key) (touch : Option Nat) (bump : Bump) :
    (lookup y w r key touch bump).uploads = y.uploads := by
  simp only [lookup]
  split
  · rfl
  · rfl

theorem uploads_advance : (advance y w).uploads = y.uploads := by
  simp only [advance]
  split
  · rfl
  · rfl
  · split
    · rfl
    · rfl
  · simp only [read]
    split
    · rfl
    · rfl
    · rfl
    · rfl
    · split
      · rfl
      · split
        · rfl
        · rfl
  · rfl
  · rfl
  · rfl
  · split
    · rfl
    · rfl
  · rfl
  · rfl
  · rfl

theorem Uploading.complete (up : Uploading timed y) (wf : Tokened timed y.server)
    (issues : timed → Issues y.server) (i : Nat) : Uploading timed (complete y w i) := by
  have ren : Renewed timed (targets y (.complete w i)) y.server (Holders.complete y w i).server :=
    .of_acts wf issues (acts_complete (Nat.le_refl _) fun u mem => (up.mine u mem).old)
  cases here : y.uploads[i]? with
  | none =>
    simp only [Holders.complete, here]
    exact up
  | some u =>
    have rest : (Holders.complete y w i).uploads = y.uploads.eraseIdx i := by
      simp only [Holders.complete, here]
      split
      · rfl
      · rfl
    refine up.eraseIdx here rest ren ?_
    rintro p ⟨v, there, rfl⟩
    rw [here] at there
    rw [Option.some.inj there]

theorem Uploading.abandon (up : Uploading timed y) (wf : Tokened timed y.server) (i : Nat) :
    Uploading timed (abandon y w i) := by
  cases here : y.uploads[i]? with
  | none =>
    simp only [Holders.abandon, here]
    exact up
  | some u =>
    simp only [Holders.abandon, here]
    exact up.eraseIdx here rfl (Quiet.refl .none wf).toRenewed fun _ none => none.elim

theorem Uploading.step (up : Uploading timed y) (wf : Tokened timed y.server)
    (issues : timed → Issues y.server)
    {e : Event} (ran : step y e = .ok y') (ren : Renewed timed (targets y e) y.server y'.server) :
    Uploading timed y' := by
  cases next_of_step ran with
  | stay => exact up
  | lookup idle r key touch bump =>
    exact up.of_same (uploads_lookup r key touch bump) ren fun _ none => none
  | mget idle key flags input bump =>
    refine up.of_same ?_ ren fun _ none => none
    simp only [mget]
    split
    · rfl
    · split
      · exact (mgetLocked_frame y key flags input bump).2
      · exact uploads_lookup _ key none bump
  | upload idle protocol comm req =>
    exact up.upload wf (fun time => (issues time).useCas) protocol comm req
  | complete idle i => exact up.complete wf issues i
  | abandon idle i => exact up.abandon wf i
  | command w command =>
    refine up.of_same rfl ren ?_
    cases command with
    | _ => exact fun _ none => none
  | advance w => exact up.of_same uploads_advance ren fun _ none => none
  | respFinish i =>
    refine up.of_same ?_ ren fun _ none => none
    simp only [respFinish]
    split
    · rfl
    · rfl
  | bumped i =>
    refine up.of_same ?_ ren fun _ none => none
    simp only [bumped]
    split
    · rfl
    · rfl
  | chore chore => exact up.of_same rfl ren fun _ none => none

theorem Sound.step (sound : Sound timed y) (room : timed → y.server.casId + 1 < 2 ^ 64)
    {e : Event} (ran : step y e = .ok y') : Sound timed y' := by
  have ren := sound.renewed room ran
  exact ⟨ren.wellFormed, fun time => ren.settings ▸ sound.useCas time,
    sound.uploading.step sound.tokened (fun time => ⟨sound.useCas time, room time⟩) ran ren⟩

end

end Kvsev.Holders
