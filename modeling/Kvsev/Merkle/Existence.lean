import Kvsev.Merkle.Atomic

/-!
# Which leaves exist

Four functions answer the question from two counters: `mt_get_size` and
`mt_exists` from the length of level 0, `mt_verify` and `mt_update` from
`mt->elems`. The counters never differ, also not after an `mt_add` that failed
half-way. The answers still do: `mt_exists` returns an error code, which is
nonzero, for offsets above `MT_AL_MAX_ELEMS`, and after an addition that failed
above level 0 the checks inside `mt_verify` and `mt_update` refuse leaves that
exist.
-/

namespace Kvsev.Merkle

open Memory Transition

/-- The `int` that `mt_exists` returns is not zero. -/
def Nonzero : Except MtError Bool → Prop
  | .error r => r ≠ .success
  | .ok found => found = true

/-- `mt_exists` answers as `mt_get_size` does, and so do the entry checks of
`mt_verify` and `mt_update`. -/
def Counted (mt : Mt) (offset : Nat) : Prop :=
  ∃ size answer, mtGetSize mt = .ok size ∧ mtExists mt offset = .ok answer ∧
    (Nonzero answer ↔ offset < size) ∧ (offset < mt.elems ↔ offset < size)

/-- With a tag that passes its checks, `mt_verify` and `mt_update` accept the
offsets below the size. -/
def Accepts (mt : Mt) (offset : Nat) : Prop :=
  ∃ size, mtGetSize mt = .ok size ∧ ∀ (tag : List UInt8) (len : Nat),
    len ≤ hashLength → len ≤ tag.length →
      (∃ r, mtVerify mt (some tag) len offset = .ok r ∧ (r ≠ .illegalParam ↔ offset < size)) ∧
      ∃ r mt', mtUpdate mt (some tag) len offset = .ok (r, mt') ∧
        (r ≠ .illegalParam ↔ offset < size)

/-- An addition that passes its checks finds fewer than `2^26` leaves. -/
def HasRoom (mt : Mt) : MtCall → Prop
  | .add tag len _ => tag.isSome → len ≤ hashLength → mt.elems < 2 ^ 26
  | .update .. => True

/-- Level 0 holds as many digests as the tree counts. -/
def Mt.Leaves (mt : Mt) (xs : List Digest) : Prop :=
  mt.elems = xs.length ∧ ∃ al, mt.levelAt 0 = .ok al ∧ al.Holds xs

theorem mtCreate_leaves : mtCreate.Leaves [] := ⟨rfl, mtAlCreate, rfl, mtAlCreate_holds⟩

/-! ## The loops leave level 0 alone -/

theorem Mt.levelAt_setLevel_succ (mt : Mt) (l : Nat) (al : MtAl) :
    (mt.setLevel (l + 1) al).levelAt 0 = mt.levelAt 0 := by
  simp [Mt.levelAt, Mt.setLevel]

theorem Mt.levelAt_setLevel_zero (mt : Mt) (al : MtAl) : (mt.setLevel 0 al).levelAt 0 = .ok al := by
  simp [Mt.levelAt, Mt.setLevel]

/-- The counter and level 0 are the same. -/
def SameLeaves (mt mt' : Mt) : Prop := mt'.elems = mt.elems ∧ mt'.levelAt 0 = mt.levelAt 0

variable {mt mt' : Mt}

theorem SameLeaves.refl (mt : Mt) : SameLeaves mt mt := ⟨rfl, rfl⟩

theorem SameLeaves.of_setLevel {l : Nat} {al : MtAl}
    (same : SameLeaves (mt.setLevel (l + 1) al) mt') : SameLeaves mt mt' :=
  ⟨same.1, same.2.trans (Mt.levelAt_setLevel_succ mt l al)⟩

section

variable {fuel : Nat} {digest digest' : Digest} {q q' l l' : Nat} {r : MtError}

theorem mtAddLoop_sameLeaves {allocs : Nat → Alloc}
    (ran : mtAddLoop allocs fuel mt digest q l = .ok (r, mt', digest', q', l')) :
    SameLeaves mt mt' := by
  induction fuel generalizing mt digest q l with
  | zero =>
    cases ran
    exact .refl _
  | succ fuel ih =>
    rw [mtAddLoop] at ran
    split at ran
    · split at ran
      · simp only [Exec.bind_eq_ok] at ran
        obtain ⟨al, -, left, -, ran⟩ := ran
        split at ran
        · cases ran
          exact .refl _
        · simp only [Exec.bind_eq_ok] at ran
          obtain ⟨next, -, ⟨code, al'⟩, -, ran⟩ := ran
          split at ran
          · cases ran
            exact .of_setLevel (.refl _)
          · exact .of_setLevel (ih ran)
      · exact ih ran
    · cases ran
      exact .refl _

theorem mtUpdateLoop_sameLeaves
    (ran : mtUpdateLoop fuel mt digest q l = .ok (r, mt', digest', q', l')) :
    SameLeaves mt mt' := by
  induction fuel generalizing mt digest q l with
  | zero =>
    cases ran
    exact .refl _
  | succ fuel ih =>
    rw [mtUpdateLoop, Exec.bind_eq_ok] at ran
    obtain ⟨next, -, ran⟩ := ran
    split at ran
    · simp only [Exec.bind_eq_ok] at ran
      obtain ⟨args, -, ran⟩ := ran
      split at ran
      · cases ran
        exact .refl _
      · simp only [Exec.bind_eq_ok] at ran
        obtain ⟨above, -, ⟨code, al⟩, -, ran⟩ := ran
        split at ran
        · cases ran
          exact .of_setLevel (.refl _)
        · exact .of_setLevel (ih ran)
    · cases ran
      exact .refl _

end

variable {xs : List Digest}

theorem SameLeaves.leaves (same : SameLeaves mt mt') (leaves : mt.Leaves xs) : mt'.Leaves xs := by
  obtain ⟨elems, al, here, list⟩ := leaves
  exact ⟨same.1.trans elems, al, same.2.trans here, list⟩

/-- Level 0 and the counter after a call, whatever the call returned. -/
theorem Mt.Leaves.step {call : MtCall} (leaves : mt.Leaves xs)
    (room : HasRoom mt call) (stepped : callStep mt call = .ok mt') : ∃ xs', mt'.Leaves xs' := by
  obtain ⟨elems, al, here, list⟩ := leaves
  rw [callStep, Exec.bind_eq_ok] at stepped
  obtain ⟨⟨r, mt₁⟩, ran, done⟩ := stepped
  cases done
  cases call with
  | add tag len allocs =>
    cases tag with
    | none =>
      cases ran
      exact ⟨xs, elems, al, here, list⟩
    | some tag =>
      simp only [MtCall.run, mtAdd] at ran
      by_cases long : hashLength < len
      · rw [if_pos long] at ran
        cases ran
        exact ⟨xs, elems, al, here, list⟩
      rw [if_neg long] at ran
      simp only [here, Exec.ok_bind, Exec.bind_eq_ok] at ran
      obtain ⟨digest, -, ⟨code, al'⟩, added, ran⟩ := ran
      have few : xs.length < 2 ^ 26 := elems ▸ room rfl (Nat.le_of_not_lt long)
      obtain ⟨code', al₁, added', outcome⟩ := mtAlAdd_spec digest (allocs 0) list few
      cases added.symm.trans added'
      rcases outcome with ⟨rfl, list'⟩ | ⟨rfl, -, list'⟩
      · have count : u32 ((mt.setLevel 0 al').elems + 1) = xs.length + 1 := by
          rw [Mt.setLevel, elems]
          exact u32_of_lt (by omega)
        have leaves' : Mt.Leaves { mt.setLevel 0 al' with elems := xs.length + 1 }
            (xs ++ [digest]) :=
          ⟨by simp, al', Mt.levelAt_setLevel_zero mt al', list'⟩
        simp only [ne_eq, not_true_eq_false, if_false, count] at ran
        split at ran
        · cases ran
          exact ⟨_, leaves'⟩
        simp only [Exec.bind_eq_ok] at ran
        obtain ⟨⟨code, mt₂, digest₂, q, l⟩, loop, ran⟩ := ran
        have after := (mtAddLoop_sameLeaves loop).leaves leaves'
        split at ran
        · cases ran
          exact ⟨_, after⟩
        · simp only [Exec.bind_eq_ok] at ran
          obtain ⟨_, -, _, -, _, -, _, -, done⟩ := ran
          cases done
          exact ⟨_, after⟩
      · cases ran
        exact ⟨xs, elems, al', Mt.levelAt_setLevel_zero mt al', list'⟩
  | update tag len offset =>
    cases tag with
    | none =>
      cases ran
      exact ⟨xs, elems, al, here, list⟩
    | some tag =>
      simp only [MtCall.run, mtUpdate] at ran
      by_cases inRange : len ≤ hashLength ∧ offset < mt.elems
      · rw [if_pos inRange] at ran
        simp only [here, Exec.ok_bind, Exec.bind_eq_ok] at ran
        obtain ⟨digest, -, ⟨code, al'⟩, stored, ran⟩ := ran
        obtain ⟨al₁, stored', list'⟩ := list.update digest (elems ▸ inRange.2)
        cases stored.symm.trans stored'
        have leaves' : (mt.setLevel 0 al').Leaves (xs.set offset digest) :=
          ⟨by simpa [Mt.setLevel] using elems, al', Mt.levelAt_setLevel_zero mt al', list'⟩
        simp only [ne_eq, not_true_eq_false, if_false, Exec.bind_eq_ok] at ran
        obtain ⟨⟨code, mt₂, digest₂, q, l⟩, loop, ran⟩ := ran
        have after := (mtUpdateLoop_sameLeaves loop).leaves leaves'
        split at ran
        · cases ran
          exact ⟨_, after⟩
        · simp only [Exec.bind_eq_ok] at ran
          obtain ⟨_, -, _, -, _, -, _, -, done⟩ := ran
          cases done
          exact ⟨_, after⟩
      · rw [if_neg inRange] at ran
        cases ran
        exact ⟨xs, elems, al, here, list⟩

/-! ## The answers -/

namespace Mt.Leaves

variable {mt : Mt} {xs : List Digest}

theorem getSize (leaves : mt.Leaves xs) : mtGetSize mt = .ok xs.length := by
  obtain ⟨-, al, here, list⟩ := leaves
  rw [mtGetSize, here, Exec.ok_bind, list.getSize]
  rfl

/-- `mt_exists` is right up to the largest offset it looks up. -/
theorem counted_iff (leaves : mt.Leaves xs) (offset : Nat) :
    Counted mt offset ↔ offset ≤ mtAlMaxElems := by
  obtain ⟨elems, al, here, list⟩ := leaves
  have size := getSize ⟨elems, al, here, list⟩
  have few : xs.length < mtAlMaxElems := list.below_max
  constructor
  · rintro ⟨n, answer, counted, asked, agree, -⟩
    by_contra large
    have past : mtAlMaxElems < offset := Nat.lt_of_not_le large
    rw [mtExists, if_pos past] at asked
    cases asked
    cases size.symm.trans counted
    have below : offset < xs.length := agree.mp (show MtError.illegalParam ≠ .success by decide)
    omega
  · intro small
    refine ⟨xs.length, .ok xs[offset]?.isSome, size, ?_, ?_, by rw [elems]⟩
    · rw [mtExists, if_neg (Nat.not_lt_of_le small), here, Exec.ok_bind, list.get]
      rfl
    · simp [Nonzero]

end Mt.Leaves

/-- A current tree accepts exactly its leaves. -/
theorem Kept.accepts {ws : List Written} (kept : Kept mt ws) (leaves : ∃ xs, mt.Leaves xs)
    (offset : Nat) : Accepts mt offset := by
  obtain ⟨xs, leaves⟩ := leaves
  have rep := kept.current
  have size : (ws.map leafDigest).length = xs.length := rep.elems.symm.trans leaves.1
  refine ⟨xs.length, leaves.getSize, fun tag len short readable => ?_⟩
  by_cases inRange : offset < xs.length
  · obtain ⟨mt', updated, -⟩ := mtUpdate_spec rep short readable (size ▸ inRange)
    obtain ⟨levels, shaped, stored⟩ := rep.shaped
    have entry := climb_eq_root stored (List.getElem?_eq_getElem (size ▸ inRange))
    have verified := shaped.mtVerify rep.elems entry short readable (size ▸ inRange)
    refine ⟨⟨_, verified, fun _ => inRange, fun _ => ?_⟩, _, mt', updated, fun _ => inRange,
      fun _ => by decide⟩
    split <;> decide
  · have refused : ¬ (len ≤ hashLength ∧ offset < mt.elems) := by
      rw [leaves.1]
      exact fun both => inRange both.2
    refine ⟨⟨.illegalParam, ?_, fun bad => absurd rfl bad, fun h => absurd h inRange⟩,
      .illegalParam, mt, ?_, fun bad => absurd rfl bad, fun h => absurd h inRange⟩
    · simp only [mtVerify, if_neg refused, Exec.pure_eq_ok]
    · simp only [mtUpdate, if_neg refused, Exec.pure_eq_ok]

/-- After any calls that find room the counters agree, and `mt_exists` with them
exactly on the offsets up to `MT_AL_MAX_ELEMS`. If moreover no addition failed
above level 0, `mt_verify` and `mt_update` accept exactly the existing leaves. -/
theorem queries_agree_iff {calls : List MtCall} (room : Meets callStep HasRoom mtCreate calls)
    {mt : Mt} (ran : run callStep mtCreate calls = .ok mt) (offset : Nat) :
    (Counted mt offset ↔ offset ≤ mtAlMaxElems) ∧
      (Meets callStep Sparing mtCreate calls →
        (Counted mt offset ∧ Accepts mt offset ↔ offset ≤ mtAlMaxElems)) := by
  have leaves : ∃ xs, mt.Leaves xs := by
    refine holds_of_run (P := fun mt => ∃ xs, mt.Leaves xs) ?_ ⟨[], mtCreate_leaves⟩ room ran
    rintro mt call mt' ⟨xs, leaves⟩ here stepped
    exact leaves.step here stepped
  have counted : Counted mt offset ↔ offset ≤ mtAlMaxElems := by
    obtain ⟨xs, leaves⟩ := leaves
    exact leaves.counted_iff offset
  refine ⟨counted, fun sparing => ?_⟩
  obtain ⟨ws, kept, -⟩ := kept_of_run (P := fun _ => True) sparing (fun _ _ => trivial) ran
  rw [and_iff_left (kept.accepts leaves offset), counted]

/-- Three leaves, the first of which is written twice. -/
theorem queries_agree_iff_sample :
    ∃ mt, run callStep mtCreate sampleCalls = .ok mt ∧ mt.elems = 3 ∧
      ∀ offset ≤ mtAlMaxElems, Counted mt offset ∧ Accepts mt offset := by
  obtain ⟨codes, mt, ran, -, rep⟩ := sampleCalls_valid.represents
  have ran := run_of_runCalls ran
  have sparing := sampleCalls_valid.sparing
  have room : Meets callStep HasRoom mtCreate sampleCalls := by
    refine Meets.of_invariant (P := fun _ => True) (fun _ _ _ _ _ _ => trivial) ?_ trivial sparing
    rintro mt (⟨tag, len, allocs⟩ | ⟨tag, len, offset⟩) - ⟨-, spared⟩
    · rintro given short
      obtain rfl | long | ⟨few, -⟩ := spared
      · cases given
      · exact absurd short (Nat.not_le_of_lt long)
      · exact few
    · exact trivial
  exact ⟨mt, ran, rep.elems, fun offset le =>
    ((queries_agree_iff room ran offset).2 sparing).mpr le⟩

/-! ## A leaf that exists and is refused -/

/-- Six leaves with level 1 as it was after four of them. -/
structure HalfDone (mt : Mt) (levels : Nat → List Digest) (n : Nat) : Prop where
  holds : mt.HoldsLevels levels
  elems : mt.elems = n
  leaves : (levels 0).length = n
  parents : (levels 1).length = 2
  above : (levels 2).length = 1

/-- The sixth addition gets no block at level 1, after the leaf was counted. -/
theorem mtAdd_sixth (rep : mt.Represents xs) (five : xs.length = 5)
    {allocs : Nat → Alloc} (failed : allocs 1 = none) :
    ∃ mt' levels, mtAdd mt (some [6]) 1 allocs = .ok (.outOfMemory, mt') ∧
      HalfDone mt' levels 6 := by
  obtain ⟨levels, shaped, stored⟩ := rep.shaped
  have width₁ : (levels 1).length = 2 := by rw [shaped.length, five]; rfl
  have width₂ : (levels 2).length = 1 := by rw [shaped.length, five]; rfl
  have leaves : levels 0 = xs := level_zero_eq (stored 0)
  obtain ⟨al, here, list⟩ := shaped.holds.levelAt (l := 0) (by decide)
  rw [leaves] at list
  have init : mtInitHash [6] 1 = .ok (padTag [6] 1) := mtInitHash_of_le (by decide) (by decide)
  obtain ⟨⟨needed, -⟩⟩ | ⟨-, al', added, list'⟩ :=
    mtAlAdd_outcome (padTag [6] 1) (allocs 0) list (by omega)
  · rw [five] at needed
    cases needed
  have count : u32 ((mt.setLevel 0 al').elems + 1) = 6 := by
    rw [Mt.setLevel, rep.elems, five]
    rfl
  let grown : Mt := { mt.setLevel 0 al' with elems := 6 }
  have holds : grown.HoldsLevels (Function.update levels 0 (xs ++ [padTag [6] 1])) :=
    shaped.holds.setLevel list'
  obtain ⟨al₁, above, list₁⟩ := holds.levelAt (l := 1) (by decide)
  have same : Function.update levels 0 (xs ++ [padTag [6] 1]) 1 = levels 1 := by simp
  rw [same] at list₁
  obtain ⟨a, left⟩ : ∃ a, (Function.update levels 0 (xs ++ [padTag [6] 1]) 0)[5 - 1]? = some a := by
    refine ⟨_, List.getElem?_eq_getElem ?_⟩
    simp [five]
  have refusedBlock : mtAlAddOrUpdate al₁ (some (mtHashValue a (padTag [6] 1))) 2 (allocs 1) =
      .ok (.outOfMemory, al₁) := by
    have failed' := mtAlAdd_outOfMemory (mtHashValue a (padTag [6] 1)) list₁ (by omega)
      (by rw [width₁]; decide)
    have nonempty : levels 1 ≠ [] := List.ne_nil_of_length_pos (by omega)
    rw [if_neg nonempty] at failed'
    have two : al₁.elems = 2 := list₁.elems.trans width₁
    simp [mtAlAddOrUpdate, two, Exec.assert, mtAlMaxElems, failed, failed']
  have loop := mtAddLoop_odd allocs 29 (padTag [6] 1) (q := 5) holds (by decide) rfl left above
    refusedBlock
  refine ⟨grown.setLevel 1 al₁, _, ?_, holds.setLevel (l := 1) list₁, rfl, ?_, ?_, ?_⟩
  · have index : u32Pred 6 = 5 := rfl
    have loop' : mtAddLoop allocs treeLevels grown (padTag [6] 1) 5 0 =
        .ok (.outOfMemory, grown.setLevel 1 al₁, mtHashValue a (padTag [6] 1), 5, 0) := loop
    simp [mtAdd, init, here, added, count, index, loop', grown]
  · simp [five]
  · simpa using width₁
  · simpa using width₂

/-- The seventh addition finds no left neighbor at level 1. -/
theorem mtAdd_seventh {levels : Nat → List Digest} (half : HalfDone mt levels 6)
    (allocs : Nat → Alloc) :
    ∃ mt' levels', mtAdd mt (some [7]) 1 allocs = .ok (.illegalParam, mt') ∧
      HalfDone mt' levels' 7 := by
  obtain ⟨al, here, list⟩ := half.holds.levelAt (l := 0) (by decide)
  have init : mtInitHash [7] 1 = .ok (padTag [7] 1) := mtInitHash_of_le (by decide) (by decide)
  have six := half.leaves
  obtain ⟨⟨needed, -⟩⟩ | ⟨-, al', added, list'⟩ :=
    mtAlAdd_outcome (padTag [7] 1) (allocs 0) list (by omega)
  · rw [six] at needed
    cases needed
  have count : u32 ((mt.setLevel 0 al').elems + 1) = 7 := by
    rw [Mt.setLevel, half.elems]
    rfl
  let grown : Mt := { mt.setLevel 0 al' with elems := 7 }
  have holds : grown.HoldsLevels (Function.update levels 0 (levels 0 ++ [padTag [7] 1])) :=
    half.holds.setLevel list'
  obtain ⟨al₁, parents, list₁⟩ := holds.levelAt (l := 1) (by decide)
  have missing : mtAlGet al₁ 2 = .ok none := by
    rw [list₁.get]
    simp [half.parents]
  have loop : mtAddLoop allocs treeLevels grown (padTag [7] 1) 6 0 =
      .ok (.illegalParam, grown, padTag [7] 1, 3, 1) := by
    rw [show treeLevels = 28 + 1 + 1 from rfl, mtAddLoop_even _ _ _ _ (by decide) (by decide) rfl]
    simp [mtAddLoop, mtRight_eq, parents, missing, mtHash]
  refine ⟨grown, _, ?_, holds, rfl, ?_, ?_, ?_⟩
  · have index : u32Pred 7 = 6 := rfl
    simp [mtAdd, init, here, added, count, index, loop, grown]
  · simp [six]
  · simpa using half.parents
  · simpa using half.above

/-- The climb from the seventh leaf asks for the same neighbor. -/
theorem mtVerify_seventh {levels : Nat → List Digest} (half : HalfDone mt levels 7) :
    mtVerify mt (some [7]) 1 6 = .ok .illegalParam := by
  have init : mtInitHash [7] 1 = .ok (padTag [7] 1) := mtInitHash_of_le (by decide) (by decide)
  have next₀ := half.holds.hasNext (l := 0) (by decide)
  have next₁ := half.holds.hasNext (l := 1) (by decide)
  have right := half.holds.findRightNeighbor (l := 0) (by decide) (by decide : 7 * 2 ^ 0 < 2 ^ 32)
  obtain ⟨al₁, parents, list₁⟩ := half.holds.levelAt (l := 1) (by decide)
  have missing : mtAlGet al₁ 2 = .ok none := by
    rw [list₁.get]
    simp [half.parents]
  have first : pathHashArgs mt (padTag [7] 1) 6 0 = .ok none := by
    have seven : u32 (6 + 1) = 7 := rfl
    simp [pathHashArgs, mtLeft_eq, seven, right, HashTree.neighbor, half.leaves]
  have second : pathHashArgs mt (padTag [7] 1) 3 1 = .ok (some (none, some (padTag [7] 1))) := by
    simp [pathHashArgs, mtLeft_eq, parents, missing]
  have loop : mtVerifyLoop mt treeLevels (padTag [7] 1) 6 0 =
      .ok (.illegalParam, padTag [7] 1, 3, 1, [(none, some (padTag [7] 1))]) := by
    have stop : mtVerifyLoop mt (28 + 1) (padTag [7] 1) 3 1 =
        .ok (.illegalParam, padTag [7] 1, 3, 1, [(none, some (padTag [7] 1))]) := by
      rw [mtVerifyLoop, next₁, second]
      simp [half.above, pathHash, mtHash]
    rw [show treeLevels = 28 + 1 + 1 from rfl, mtVerifyLoop, next₀, first]
    simp only [Nat.reduceAdd] at stop
    simp [half.parents, pathHash, stop]
  simp [mtVerify, half.elems, init, loop]

/-- One byte after another is added, and all memory is granted. -/
def addBytes (bytes : List UInt8) : List MtCall :=
  bytes.map fun byte => .add (some [byte]) 1 fun _ => some fun _ => 0

theorem run_addBytes (rep : mt.Represents xs) (bytes : List UInt8)
    (fits : xs.length + bytes.length ≤ 2 ^ 26) :
    ∃ mt' xs', run callStep mt (addBytes bytes) = .ok mt' ∧ mt'.Represents xs' ∧
      xs'.length = xs.length + bytes.length := by
  induction bytes generalizing mt xs with
  | nil => exact ⟨mt, xs, rfl, rep, rfl⟩
  | cons byte bytes ih =>
    rw [List.length_cons] at fits
    obtain ⟨mt₁, added, rep₁⟩ := mtAdd_success rep (by omega) (show 1 ≤ hashLength by decide)
      (show 1 ≤ [byte].length by simp) (show ∀ _, some (fun _ => (0 : UInt8)) ≠ none from nofun)
    obtain ⟨mt', xs', ran, rep', length⟩ := ih rep₁ (by simp; omega)
    refine ⟨mt', xs', ?_, rep', by simp at length ⊢; omega⟩
    have first : callStep mt (.add (some [byte]) 1 fun _ => some fun _ => 0) = .ok mt₁ := by
      simp [callStep, MtCall.run, added]
    exact (run_cons first _).trans ran

/-- No block is granted at level 1. -/
def withoutLevelOne : Nat → Alloc := fun l => if l = 1 then none else some fun _ => 0

/-- Seven additions; the sixth gets no block at level 1. -/
def halfDoneCalls : List MtCall :=
  addBytes [1, 2, 3, 4, 5] ++
    [.add (some [6]) 1 withoutLevelOne, .add (some [7]) 1 fun _ => some fun _ => 0]

/-- `mt_exists` says yes to a leaf beyond `MT_AL_MAX_ELEMS` of an empty tree, and
`mt_verify` refuses a leaf that exists after an addition failed half-way. -/
theorem queries_disagree :
    (∃ answer, mtExists mtCreate (mtAlMaxElems + 1) = .ok answer ∧ Nonzero answer ∧
      mtGetSize mtCreate = .ok 0) ∧
    ∃ mt, run callStep mtCreate halfDoneCalls = .ok mt ∧ mtGetSize mt = .ok 7 ∧
      mtExists mt 6 = .ok (.ok true) ∧ mtVerify mt (some [7]) 1 6 = .ok .illegalParam := by
  refine ⟨⟨_, rfl, nofun, rfl⟩, ?_⟩
  obtain ⟨mt₅, xs, ran₅, rep, five⟩ :=
    run_addBytes mtCreate_represents [1, 2, 3, 4, 5] (by decide)
  obtain ⟨mt₆, _, added₆, half₆⟩ := mtAdd_sixth rep five
    (show withoutLevelOne 1 = none from rfl)
  obtain ⟨mt₇, levels, added₇, half₇⟩ := mtAdd_seventh half₆ fun _ => some fun _ => 0
  obtain ⟨al, here, list⟩ := half₇.holds.levelAt (l := 0) (by decide)
  refine ⟨mt₇, ?_, ?_, ?_, mtVerify_seventh half₇⟩
  · rw [halfDoneCalls, run_append ran₅]
    simp [run, callStep, MtCall.run, added₆, added₇]
  · simp [mtGetSize, here, list.getSize, half₇.leaves]
  · simp [mtExists, mtAlMaxElems, here, list.get, half₇.leaves]

end Kvsev.Merkle
