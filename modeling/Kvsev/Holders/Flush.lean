import Kvsev.Holders.Stamps

/-!
# Flushing

A flush is only a pair of settings that lookups compare with the time and the unique of
the item they find. The system is run here together with what should be remembered of its
history: when each item was stored, and when each flush took or will take effect. What was
stored more than a second before a flush took effect must not be returned any more.

There is one pair of settings for all flushes, so a flush makes the server forget those
before it. And a bump that was queued before a flush may come after it, and makes an item
young again that was old enough to be flushed.
-/

namespace Kvsev.Holders

open Memory Server Transition Stamped

/-- The `new_oldest` of `process_flush_all_command` and `process_bin_flush`. -/
def newOldest (started now : Nat) (exptime : Int) : Nat :=
  if 0 < exptime then realtime started now exptime.toNat else now

/-- The system and its history. -/
structure Chronicle where
  system : System
  /-- When the store of an item was completed. -/
  stored : ItemPtr → Nat
  /-- When the flushes so far took effect, or will. -/
  moments : List Nat

namespace Chronicle

def init (settings : Settings) (workers : Nat) : Chronicle :=
  ⟨System.init settings workers, fun _ => 0, []⟩

/-- The step completes the upload of the item. -/
def completes (y : System) (p : ItemPtr) : Event → Bool
  | .complete _ i => y.uploads[i]?.any fun u => u.item = p
  | _ => false

/-- The times of the stores after a step. What a step makes it also stores, if it does not
only begin an upload. -/
def recordStores (h : Chronicle) (e : Event) (p : ItemPtr) : Nat :=
  if completes h.system p e ∨ h.system.server.next ≤ p then h.system.server.currentTime
  else h.stored p

/-- Flushes with their argument, and everything else. -/
inductive Entry where
  | flushAll (exptime : Int)
  | other (e : Event)

/-- One step, which is recorded. -/
def step (started : Nat) (h : Chronicle) : Entry → Exec Chronicle
  | .flushAll exptime =>
    let s := h.system.server
    let oldest := newOldest started s.currentTime exptime
    .ok { h with
      system := { h.system with server := flushAll s oldest }
      moments := max oldest s.currentTime :: h.moments }
  -- Flushes have an entry of their own.
  | .other (.chore (.flushAll _)) => .ok h
  | .other e =>
    match Holders.step h.system e with
    | .error trap => .error trap
    | .ok system => .ok { h with system, stored := recordStores h e }

/-- No lookup returns an item that was stored more than one second before a flush took
effect. -/
def Permanent (h : Chronicle) : Prop :=
  ∀ key p, (doItemGet h.system.server key false).1 = some p →
    ∀ m ∈ h.moments, m ≤ h.system.server.currentTime → m ≤ h.stored p + 1

/-- What keeps flushes permanent. A flush comes first, or after one that has taken effect
and then without a delay, and it is not for a time in the past. The LRU maintainer bumps no
item that only its time shows to be flushed. And there are uniques left. -/
structure Permitted (started : Nat) (h : Chronicle) (e : Entry) : Prop where
  room : h.system.server.settings.useCas = true → h.system.server.casId + 1 < 2 ^ 64
  flush : ∀ exptime, e = .flushAll exptime →
    ((realtimeMaxdelta : Int) < exptime → started + h.system.server.currentTime ≤ exptime) ∧
    (h.system.server.oldestLive = 0 ∨
      h.system.server.oldestLive ≤ h.system.server.currentTime ∧ exptime ≤ 0)
  bump : ∀ i p, e = .other (.bumped i) → h.system.bumps[i]? = some p →
    itemIsFlushed h.system.server (h.system.server.heap p) = true →
      h.system.server.oldestCas ≠ 0 ∧
        itemGetCas h.system.server (h.system.server.heap p) ≠ 0 ∧
        itemGetCas h.system.server (h.system.server.heap p) < h.system.server.oldestCas

/-! ## What a step does to the times -/

section

variable {y y' : System}

/-- Steps leave flushed items alone, unless they are about the time. -/
theorem ages_step (timely : Timely y.server) (old : ∀ u ∈ y.uploads, u.item < y.server.next)
    {e : Event} (plain : marksTime e = false) (ran : Holders.step y e = .ok y') :
    Ages (fun p => completes y p e) y.server y'.server := by
  have acts := acts_step old (fun key p found => (timely key p found).1) plain ran
  refine (Ages.of_acts acts).weaken fun p _ target => ?_
  cases e with
  | complete w i =>
    obtain ⟨u, here, rfl⟩ := target
    simp [completes, here]
  | command w command => cases command <;> exact target.elim
  | _ => exact target.elim

end

/-! ## Whole runs -/

variable {started : Nat} {h h' : Chronicle}

/-- A flush that is over, or comes with the next second: what it concerns is flushed. -/
def Settled (h : Chronicle) (m : Nat) : Prop :=
  m ≤ h.system.server.currentTime + 1 ∧ ∀ key p, h.system.server.assoc key = some p →
    h.stored p + 1 < m → itemIsFlushed h.system.server (h.system.server.heap p) = true

/-- A flush that is still to come. -/
def Pending (h : Chronicle) (m : Nat) : Prop :=
  h.system.server.currentTime < m ∧ h.system.server.oldestLive =
    if h.system.server.settings.useCas then m - 1 else m

structure Inv (h : Chronicle) : Prop where
  sound : Sound (h.system.server.settings.useCas = true) h.system
  timely : Timely h.system.server
  clock : 2 ≤ h.system.server.currentTime
  uniques : h.system.server.settings.useCas = true → ∀ key p,
    h.system.server.assoc key = some p → 0 < (h.system.server.heap p).cas
  moments : ∀ m ∈ h.moments, Settled h m ∨ Pending h m

theorem Inv.permanent (inv : Inv h) : Permanent h := by
  intro key p found m mem past
  obtain ⟨here, alive⟩ := doItemGet_some found
  by_contra early
  obtain ⟨-, settled⟩ | ⟨later, -⟩ := inv.moments m mem
  · have flushed := settled key p here (by omega)
    simp [itemIsDead, flushed] at alive
  · omega

theorem Inv.init (settings : Settings) (workers : Nat) : Inv (init settings workers) where
  sound := Sound.init (fun useCas => useCas) workers
  timely := fun _ _ found => nomatch found
  clock := (by decide : 2 ≤ 62)
  uniques := fun _ _ _ found => nomatch found
  moments := fun _ mem => nomatch mem

variable {y' : System}

/-- Uniques in the table are never zero. -/
theorem uniques_step {y : System} {t : Targets} {timed : Prop} (time : timed)
    (wf : Tokened timed y.server) (ren : Renewed timed t y.server y'.server)
    (uniques : ∀ key p, y.server.assoc key = some p → 0 < (y.server.heap p).cas) (key : Key)
    (p : ItemPtr) (found : y'.server.assoc key = some p) : 0 < (y'.server.heap p).cas := by
  obtain before | fresh := ren.renews.table time key p found
  · obtain ⟨same, -⟩ | ⟨fresh, -⟩ := ren.renews.content time p (wf.old key p before)
    · have same : (y'.server.heap p).cas = (y.server.heap p).cas := same
      rw [same]
      exact uniques key p before
    · exact Nat.lt_of_le_of_lt (Nat.zero_le _) fresh
  · exact Nat.lt_of_le_of_lt (Nat.zero_le _) fresh

variable {e : Event}

/-- What does not depend on the kind of the step. -/
theorem Inv.next (inv : Inv h) {stored : ItemPtr → Nat} {moments : List Nat}
    (room : h.system.server.settings.useCas = true → h.system.server.casId + 1 < 2 ^ 64)
    (ran : Holders.step h.system e = .ok y') (timely : Timely y'.server)
    (clock : h.system.server.currentTime ≤ y'.server.currentTime)
    (settled : ∀ m ∈ moments, Settled ⟨y', stored, moments⟩ m ∨ Pending ⟨y', stored, moments⟩ m) :
    Inv ⟨y', stored, moments⟩ := by
  have ren := inv.sound.renewed room ran
  have sound := inv.sound.step room ran
  rw [← ren.settings] at sound
  refine ⟨sound, timely, Nat.le_trans inv.clock clock, fun useCas key p found => ?_, settled⟩
  have time : h.system.server.settings.useCas = true := ren.settings ▸ useCas
  exact uniques_step time inv.sound.tokened ren (inv.uniques time) key p found

theorem Settled.keep {m : Nat} {stored : ItemPtr → Nat} {moments : List Nat}
    (settled : Settled h m) (clock : h.system.server.currentTime ≤ y'.server.currentTime)
    (kept : ∀ key p, y'.server.assoc key = some p →
      (h.system.server.assoc key = some p ∧ stored p = h.stored p ∧
        (itemIsFlushed h.system.server (h.system.server.heap p) = true →
          itemIsFlushed y'.server (y'.server.heap p) = true)) ∨
      stored p = h.system.server.currentTime) : Settled ⟨y', stored, moments⟩ m := by
  obtain ⟨due, settled⟩ := settled
  refine ⟨Nat.le_trans due (Nat.succ_le_succ clock), fun key p found before => ?_⟩
  obtain ⟨here, same, flushed⟩ | fresh := kept key p found
  · exact flushed (settled key p here (same ▸ before))
  · have before : stored p + 1 < m := before
    omega

theorem recordStores_cases (h : Chronicle) (e : Event) (p : ItemPtr) :
    recordStores h e p = h.stored p ∨ recordStores h e p = h.system.server.currentTime := by
  unfold recordStores
  split
  · exact .inr rfl
  · exact .inl rfl

theorem Inv.plain (inv : Inv h)
    (room : h.system.server.settings.useCas = true → h.system.server.casId + 1 < 2 ^ 64)
    (plain : marksTime e = false) (ran : Holders.step h.system e = .ok y') :
    Inv ⟨y', recordStores h e, h.moments⟩ := by
  have ages := ages_step inv.timely (fun u mem => (inv.sound.uploading.mine u mem).old) plain ran
  have clock := Nat.le_of_eq ages.currentTime.symm
  refine inv.next room ran (ages.timely inv.timely) clock fun m mem => ?_
  obtain settled | ⟨later, live⟩ := inv.moments m mem
  · refine .inl (settled.keep clock fun key p found => ?_)
    obtain ⟨here, kept⟩ | linked | fresh := ages.table key p found
    · obtain same | now := recordStores_cases h e p
      · refine .inl ⟨here, same, fun flushed => ?_⟩
        obtain ⟨time, cas⟩ := kept flushed
        rw [ages.flushed time cas, flushed]
      · exact .inr now
    · exact .inr (if_pos (.inl linked))
    · exact .inr (if_pos (.inr fresh))
  · refine .inr ⟨?_, ?_⟩
    · rw [ages.currentTime]
      exact later
    · rw [ages.oldestLive, ages.settings]
      exact live

theorem Inv.tick (inv : Inv h)
    (room : h.system.server.settings.useCas = true → h.system.server.casId + 1 < 2 ^ 64)
    (ran : Holders.step h.system (.chore .tick) = .ok y') :
    Inv ⟨y', recordStores h (.chore .tick), h.moments⟩ := by
  obtain rfl := Except.ok.inj ran
  refine inv.next room ran (fun key p found => ?_) (Nat.le_succ _) fun m mem => ?_
  · exact (inv.timely key p found).imp_right fun le => Nat.le_succ_of_le le
  · obtain settled | ⟨later, live⟩ := inv.moments m mem
    · refine .inl (settled.keep (Nat.le_succ _) fun key p found => ?_)
      obtain same | now := recordStores_cases h (.chore .tick) p
      · refine .inl ⟨found, same, fun flushed => ?_⟩
        obtain ⟨set, due, which⟩ := itemIsFlushed_iff.mp flushed
        exact itemIsFlushed_iff.mpr ⟨set, Nat.le_succ_of_le due, which⟩
      · exact .inr now
    · by_cases soon : h.system.server.currentTime + 1 < m
      · exact .inr ⟨soon, live⟩
      -- This is the moment. No item in the table is younger than the second before.
      refine .inl ⟨by simp only [Chore.run]; omega, fun key p found _ => ?_⟩
      have time := (inv.timely key p found).2
      have clock := inv.clock
      refine itemIsFlushed_iff.mpr ?_
      simp only [Chore.run]
      split at live
      · exact ⟨by omega, by omega, .inl (by omega)⟩
      · exact ⟨by omega, by omega, .inl (by omega)⟩

theorem lruMaintainerBump_frame (s : State) (p : ItemPtr) :
    (∀ q, q ≠ p → (lruMaintainerBump s p).heap q = s.heap q) ∧
      ((lruMaintainerBump s p).heap p).cas = (s.heap p).cas ∧
      (((lruMaintainerBump s p).heap p).time = (s.heap p).time ∨
        ((lruMaintainerBump s p).heap p).time = s.currentTime) ∧
      (lruMaintainerBump s p).assoc = s.assoc ∧ (lruMaintainerBump s p).next = s.next ∧
      (lruMaintainerBump s p).currentTime = s.currentTime ∧
      (lruMaintainerBump s p).settings = s.settings ∧
      (lruMaintainerBump s p).oldestLive = s.oldestLive ∧
      (lruMaintainerBump s p).oldestCas = s.oldestCas := by
  unfold lruMaintainerBump doItemUpdate
  split
  · refine ⟨fun q other => ?_, ?_, .inr ?_, rfl, rfl, rfl, rfl, rfl, rfl⟩
    · simp [doItemRemove, State.modify, other]
    · simp [doItemRemove, State.modify]
    · simp [doItemRemove, State.modify]
  · refine ⟨fun q other => ?_, ?_, .inl ?_, rfl, rfl, rfl, rfl, rfl, rfl⟩
    · simp [doItemRemove, State.modify, other]
    · simp [doItemRemove, State.modify]
    · simp [doItemRemove, State.modify]

/-- A bump of an item that is flushed by its unique, or not at all. -/
theorem Inv.bumped (inv : Inv h) {i : Nat} (permitted : Permitted started h (.other (.bumped i)))
    (ran : Holders.step h.system (.bumped i) = .ok y') :
    Inv ⟨y', recordStores h (.bumped i), h.moments⟩ := by
  cases here : h.system.bumps[i]? with
  | none =>
    have same : y' = h.system := by
      rw [← Except.ok.inj ran, Holders.bumped, here]
    subst same
    refine inv.next permitted.room ran inv.timely (Nat.le_refl _) fun m mem => ?_
    refine (inv.moments m mem).imp (fun settled => ?_) id
    refine settled.keep (Nat.le_refl _) fun key p found => ?_
    exact (recordStores_cases h (.bumped i) p).imp (fun same => ⟨found, same, id⟩) id
  | some p =>
    obtain ⟨others, cas, time, assoc, next, currentTime, settings, oldestLive, oldestCas⟩ :=
      lruMaintainerBump_frame h.system.server p
    have server : y'.server = lruMaintainerBump h.system.server p := by
      rw [← Except.ok.inj ran, Holders.bumped, here]
    rw [← server] at others cas time assoc next currentTime settings oldestLive oldestCas
    have clock := Nat.le_of_eq currentTime.symm
    refine inv.next permitted.room ran (fun key q found => ?_) clock fun m mem => ?_
    · rw [assoc] at found
      obtain ⟨lt, le⟩ := inv.timely key q found
      refine ⟨next ▸ lt, ?_⟩
      rw [currentTime]
      by_cases same : q = p
      · subst same
        omega
      · rw [others q same]
        exact le
    · obtain settled | ⟨later, live⟩ := inv.moments m mem
      · refine .inl (settled.keep clock fun key q found => ?_)
        rw [assoc] at found
        refine (recordStores_cases h (.bumped i) q).imp (fun same => ⟨found, same, ?_⟩) id
        intro flushed
        obtain ⟨set, due, -⟩ := itemIsFlushed_iff.mp flushed
        by_cases same : q = p
        · subst same
          have covered := permitted.bump i q rfl here flushed
          refine itemIsFlushed_iff.mpr ⟨oldestLive ▸ set, ?_, .inr ?_⟩
          · rw [oldestLive, currentTime]
            exact due
          · rw [oldestCas, itemGetCas, settings, cas]
            exact covered
        · rw [others q same,
            itemIsFlushed_congr ⟨settings, currentTime, oldestLive, oldestCas⟩ rfl rfl]
          exact flushed
      · refine .inr ⟨?_, ?_⟩
        · rw [currentTime]
          exact later
        · rw [oldestLive, settings]
          exact live

/-! ## Flushes -/

variable {exptime : Int}

theorem newOldest_of_nonpos {now : Nat} (nonpos : exptime ≤ 0) :
    newOldest started now exptime = now := if_neg (by omega)

theorem le_newOldest {now : Nat} (clock : 2 ≤ now)
    (future : (realtimeMaxdelta : Int) < exptime → started + now ≤ exptime) :
    now ≤ newOldest started now exptime := by
  unfold newOldest realtime
  split
  · split
    · omega
    split
    · have := future (by omega)
      split
      · omega
      · omega
    · omega
  · exact Nat.le_refl _

theorem flushAll_frame (s : State) (oldest : Nat) :
    (flushAll s oldest).assoc = s.assoc ∧ (flushAll s oldest).heap = s.heap ∧
      (flushAll s oldest).next = s.next ∧ (flushAll s oldest).currentTime = s.currentTime ∧
      (flushAll s oldest).settings = s.settings ∧
      (flushAll s oldest).oldestLive = if s.settings.useCas then oldest - 1 else oldest := by
  unfold flushAll
  split
  · dsimp only
    split
    · exact ⟨rfl, rfl, rfl, rfl, rfl, rfl⟩
    · exact ⟨rfl, rfl, rfl, rfl, rfl, rfl⟩
  · exact ⟨rfl, rfl, rfl, rfl, rfl, rfl⟩

/-- A flush without a delay flushes everything. -/
theorem flushed_now (inv : Inv h)
    (room : h.system.server.settings.useCas = true → h.system.server.casId + 1 < 2 ^ 64)
    {key : Key} {p : ItemPtr} (found : h.system.server.assoc key = some p) :
    itemIsFlushed (flushAll h.system.server h.system.server.currentTime)
      (h.system.server.heap p) = true := by
  have clock := inv.clock
  rw [itemIsFlushed_iff]
  unfold flushAll
  split
  · next useCas =>
      -- Every unique was given out before the one of the flush.
      have stamped : (h.system.server.heap p).cas ≤ h.system.server.casId :=
        inv.sound.tokened.stamped useCas key p found
      have positive := inv.uniques useCas key p found
      dsimp only
      rw [if_pos (Nat.sub_le _ _), u64_of_lt (room useCas)]
      refine ⟨by dsimp only; omega, Nat.sub_le _ _, .inr ?_⟩
      simp only [itemGetCas, useCas, if_true]
      omega
  · exact ⟨by dsimp only; omega, Nat.le_refl _, .inl (inv.timely key p found).2⟩

theorem Inv.flushAll (inv : Inv h) (permitted : Permitted started h (.flushAll exptime))
    (ran : step started h (.flushAll exptime) = .ok h') : Inv h' := by
  obtain rfl := Except.ok.inj ran
  obtain ⟨future, order⟩ := permitted.flush exptime rfl
  have clock := inv.clock
  have le : h.system.server.currentTime ≤ newOldest started h.system.server.currentTime exptime :=
    le_newOldest inv.clock future
  generalize recorded : newOldest started h.system.server.currentTime exptime = oldest at le ⊢
  obtain ⟨assoc, heap, next, currentTime, settings, oldestLive⟩ :=
    flushAll_frame h.system.server oldest
  -- A flush that is still to come is only there if one has been set.
  have soon {m : Nat} (pending : Pending h m) : m = h.system.server.currentTime + 1 ∧
      exptime ≤ 0 := by
    obtain ⟨later, live⟩ := pending
    split at live
    · omega
    · omega
  refine inv.next (e := .chore (.flushAll oldest)) permitted.room rfl ?_
    (Nat.le_of_eq currentTime.symm) fun m mem => ?_
  · intro key p found
    dsimp only at found ⊢
    rw [assoc] at found
    rw [next, heap, currentTime]
    exact inv.timely key p found
  · obtain now | delayed := Nat.eq_or_lt_of_le le
    · have due : m ≤ h.system.server.currentTime + 1 := by
        obtain rfl | before := List.mem_cons.mp mem
        · omega
        · obtain settled | pending := inv.moments m before
          · exact settled.1
          · exact Nat.le_of_eq (soon pending).1
      refine .inl ⟨?_, fun key p found _ => ?_⟩
      · rw [currentTime]
        exact due
      · dsimp only at found ⊢
        rw [assoc] at found
        rw [heap, ← now]
        exact flushed_now inv permitted.room found
    · have positive : ¬exptime ≤ 0 := by
        intro nonpos
        rw [newOldest_of_nonpos nonpos] at recorded
        omega
      obtain rfl | before := List.mem_cons.mp mem
      · refine .inr ⟨?_, ?_⟩
        · rw [currentTime]
          omega
        · dsimp only
          rw [oldestLive, settings, Nat.max_eq_left le]
      obtain ⟨due, settled⟩ | pending := inv.moments m before
      · -- No flush was set, so there was nothing left of what the earlier ones concern.
        refine .inl ⟨?_, fun key p found early => ?_⟩
        · rw [currentTime]
          exact due
        · dsimp only at found
          rw [assoc] at found
          obtain ⟨set, -⟩ := itemIsFlushed_iff.mp (settled key p found early)
          omega
      · exact absurd (soon pending).2 positive

theorem step_other (other : ∀ oldest, e ≠ .chore (.flushAll oldest))
    (ran : step started h (.other e) = .ok h') :
    ∃ y', Holders.step h.system e = .ok y' ∧ h' = ⟨y', recordStores h e, h.moments⟩ := by
  unfold step at ran
  split at ran
  · next same => cases same
  · next oldest same =>
      cases same
      exact absurd rfl (other oldest)
  · next e' _ same =>
      cases same
      split at ran
      · cases ran
      · next y' stepped =>
          cases ran
          exact ⟨y', stepped, rfl⟩

theorem Inv.step (inv : Inv h) {e : Entry} (permitted : Permitted started h e)
    (ran : step started h e = .ok h') : Inv h' := by
  cases e with
  | flushAll exptime => exact inv.flushAll permitted ran
  | other e =>
    by_cases flush : ∃ oldest, e = .chore (.flushAll oldest)
    · obtain ⟨oldest, rfl⟩ := flush
      cases ran
      exact inv
    obtain ⟨y', stepped, rfl⟩ := step_other (fun oldest same => flush ⟨oldest, same⟩) ran
    cases plain : marksTime e with
    | false => exact inv.plain permitted.room plain stepped
    | true =>
      unfold marksTime at plain
      split at plain
      · exact inv.bumped permitted stepped
      · exact inv.tick permitted.room stepped
      · exact absurd ⟨_, rfl⟩ flush
      · cases plain

/-- In every run whose steps are all permitted, flushes are permanent. -/
theorem flush_permanent (started : Nat) (settings : Settings) (workers : Nat) (entries : List Entry)
    (permitted : Meets (step started) (Permitted started) (init settings workers) entries) :
    Throughout (step started) Permanent (init settings workers) entries := by
  have always : Throughout (step started) Inv (init settings workers) entries :=
    throughout_of_invariant (fun _ _ _ inv permitted ran => inv.step permitted ran)
      (.init settings workers) permitted
  exact always.mono fun _ inv => inv.permanent

/-- A value is stored, and some time later there is a flush. -/
def storedAndFlushed : List Entry :=
  [.other (.upload 0 .text .set (plainRequest [107] [118, 13, 10])), .other (.complete 0 0),
    .other (.advance 0), .other (.chore .tick), .other (.chore .tick), .flushAll 0]

/-- Where uniques are few, other steps than flushes and bumps are permitted. -/
theorem permitted_of_other (few : h.system.server.casId < 1000)
    (other : ∀ i, e ≠ .bumped i) : Permitted started h (.other e) where
  room := fun _ => Nat.lt_trans (Nat.succ_lt_succ few) (by decide)
  flush := nofun
  bump := fun i _ same => absurd (Entry.other.inj same) (other i)

theorem flush_permanent_sample :
    Throughout (step 1000000000) Permanent (init defaultSettings 1) storedAndFlushed := by
  refine flush_permanent 1000000000 defaultSettings 1 storedAndFlushed ?_
  refine ⟨permitted_of_other (by decide) nofun, ?_⟩
  rintro h₁ ⟨⟩
  refine ⟨permitted_of_other (by decide) nofun, ?_⟩
  rintro h₂ ⟨⟩
  refine ⟨permitted_of_other (by decide) nofun, ?_⟩
  rintro h₃ ⟨⟩
  refine ⟨permitted_of_other (by decide) nofun, ?_⟩
  rintro h₄ ⟨⟩
  refine ⟨permitted_of_other (by decide) nofun, ?_⟩
  rintro h₅ ⟨⟩
  refine ⟨⟨fun _ => by decide, ?_, nofun⟩, fun _ _ => trivial⟩
  rintro exptime ⟨⟩
  exact ⟨fun positive => absurd positive (by decide), .inl rfl⟩

/-- A value is stored, and hits leave a bump for it in the buffer. Later a flush takes
effect, and then the bump is worked off. -/
def bumpedAfterFlush : List Entry :=
  [.other (.upload 0 .text .set (plainRequest [107] [118, 13, 10])), .other (.complete 0 0),
    .other (.advance 0), .other (.lookup 0 .touch [107] none .queued), .flushAll 3,
    .other (.chore .tick), .other (.chore .tick), .other (.chore .tick), .other (.bumped 0)]

/-- An item that was flushed comes back when there is another flush, with a delay; and when
the LRU maintainer bumps it. -/
theorem flushed_comes_back :
    (∃ h, run (step 1000000000) (init defaultSettings 1) (storedAndFlushed ++ [.flushAll 100]) =
        .ok h ∧ ¬Permanent h) ∧
      ∃ h, run (step 1000000000) (init defaultSettings 1) bumpedAfterFlush = .ok h ∧
        ¬Permanent h := by
  refine ⟨⟨_, rfl, fun permanent => ?_⟩, ⟨_, rfl, fun permanent => ?_⟩⟩
  · have early := permanent [107] 0 (by decide +kernel) 64 (by decide +kernel) (by decide +kernel)
    revert early
    decide +kernel
  · have early := permanent [107] 0 (by decide +kernel) 65 (by decide +kernel) (by decide +kernel)
    revert early
    decide +kernel

end Chronicle

end Kvsev.Holders
