import Kvsev.Merkle.Runs
import Kvsev.Transition.Run

/-!
# Failed additions

`mt_add` counts its leaf before it climbs, and `MT_ERR_CHK` returns from the
middle of the climb. A failed call leaves the tree as it was exactly when the
allocation that failed is the one for the leaf itself.

A call makes at most two allocations. The levels above the leaves grow one at a
time, at the level above the lowest bit of the number of leaves, so `LacksBlock`
names the only other allocation that can fail.
-/

namespace Kvsev.Merkle

open Memory Transition HashTree

/-- The call returns, and unless it returns `MT_SUCCESS` the tree is as before. -/
def Atomic (mt : Mt) (tag : Option (List UInt8)) (len : Nat) (allocs : Nat → Alloc) : Prop :=
  ∃ r mt', mtAdd mt tag len allocs = .ok (r, mt') ∧ (r ≠ .success → mt' = mt)

/-- No allocation above level 0 fails in a call of `mt_add` on `n` leaves, either
because the call returns before it is made or because it succeeds. The size of
the leaf array has to stay below the size that wraps to zero. -/
def Spared (n : Nat) : MtCall → Prop
  | .add tag len allocs => tag = none ∨ hashLength < len ∨
      n < 2 ^ 26 ∧ (needsBlock n = true ∧ allocs 0 = none ∨ ∀ l, ¬ LacksBlock allocs n l)
  | .update .. => True

/-- The tree after a call, whatever the call returned. -/
def callStep (mt : Mt) (call : MtCall) : Exec Mt := do
  let done ← call.run mt
  return done.2

/-- A call with a readable tag that spares the tree. -/
def Sparing (mt : Mt) (call : MtCall) : Prop := call.Readable ∧ Spared mt.elems call

/-- The tree is current for what was written, and untouched as long as that is
nothing. -/
structure Kept (mt : Mt) (ws : List Written) : Prop where
  current : mt.Represents (ws.map leafDigest)
  untouched : ws = [] → mt = mtCreate

theorem mtCreate_kept : Kept mtCreate [] := ⟨mtCreate_represents, fun _ => rfl⟩

theorem Mt.setLevel_of_levelAt {mt : Mt} {l : Nat} {al : MtAl} (here : mt.levelAt l = .ok al) :
    mt.setLevel l al = mt := by
  have entry : mt.level[l]? = some al := by
    rw [Mt.levelAt] at here
    cases found : mt.level[l]? with
    | none =>
      rw [found] at here
      cases here
    | some al' =>
      rw [found] at here
      rw [Except.ok.inj here]
  rw [Mt.setLevel]
  congr 1
  ext k inRange
  rw [Vector.getElem_setIfInBounds]
  split
  · rename_i same
    subst same
    rw [Vector.getElem?_eq_getElem inRange] at entry
    exact (Option.some.inj entry).symm
  · rfl

namespace Kept

variable {mt : Mt} {ws : List Written}

section

variable (kept : Kept mt ws)

include kept

theorem elems : mt.elems = ws.length := by
  simpa using kept.current.elems

/-- A failed allocation for the leaf changes nothing. -/
theorem setLevel_refused {al : MtAl} (here : mt.levelAt 0 = .ok al) :
    mt.setLevel 0 (refused (ws.map leafDigest) al) = mt := by
  have same : refused (ws.map leafDigest) al = al := by
    rw [refused]
    split
    · rename_i none
      have empty : ws = [] := List.map_eq_nil_iff.mp none
      rw [kept.untouched empty] at here
      obtain rfl : mtAlCreate = al := Except.ok.inj here
      rfl
    · rfl
  rw [same, Mt.setLevel_of_levelAt here]

/-- With a full leaf array the failed call releases it. -/
theorem mtAdd_full (full : ws.length = 2 ^ 26) {tag : List UInt8} {len : Nat}
    (short : len ≤ hashLength) (readable : len ≤ tag.length) (allocs : Nat → Alloc) :
    ∃ mt', mtAdd mt (some tag) len allocs = .ok (.outOfMemory, mt') ∧ mt' ≠ mt := by
  have length : (ws.map leafDigest).length = 2 ^ 26 := by simpa using full
  obtain ⟨al, here, list, run⟩ := kept.current.mtAdd_full length short readable allocs
  refine ⟨_, run, ?_⟩
  intro same
  have nonempty : ws.map leafDigest ≠ [] := by
    intro none
    rw [none] at length
    simp at length
  obtain ⟨block, _, live, _⟩ := list.block nonempty
  have there : (mt.setLevel 0 { al with store := .freed }).levelAt 0 =
      .ok { al with store := .freed } := by
    simp [Mt.levelAt, Mt.setLevel]
  rw [same, here] at there
  have store := congrArg MtAl.store (Except.ok.inj there)
  rw [live] at store
  cases store

/-- An addition is atomic exactly when it spares the tree. -/
theorem atomic_iff {tag : Option (List UInt8)} {len : Nat}
    {allocs : Nat → Alloc} (readable : (MtCall.add tag len allocs).Readable) :
    Atomic mt tag len allocs ↔ Spared mt.elems (.add tag len allocs) := by
  cases tag with
  | none => exact ⟨fun _ => .inl rfl, fun _ => ⟨_, mt, rfl, fun _ => rfl⟩⟩
  | some tag =>
    by_cases short : len ≤ hashLength
    · have long : len ≤ tag.length := readable tag rfl short
      have room : ws.length ≤ 2 ^ 26 := by simpa using kept.current.fits
      have spared : Spared mt.elems (.add (some tag) len allocs) ↔ ws.length < 2 ^ 26 ∧
          (needsBlock ws.length = true ∧ allocs 0 = none ∨
            ∀ l, ¬ LacksBlock allocs ws.length l) := by
        simp [Spared, kept.elems, Nat.not_lt_of_le short]
      rw [spared]
      rcases Nat.eq_or_lt_of_le room with full | fits
      · obtain ⟨mt', run, changed⟩ := kept.mtAdd_full full short long allocs
        constructor
        · rintro ⟨r, mt₁, run₁, same⟩
          rw [run] at run₁
          cases run₁
          exact absurd (same (by decide)) changed
        · rintro ⟨fits, _⟩
          omega
      · obtain ⟨al, here, _⟩ := kept.current.levels.choose_spec.1.levelAt (l := 0) (by decide)
        have outcome := mtAdd_outcome kept.current (by simpa using fits) short long allocs here
        rw [List.length_map] at outcome
        rcases outcome with ⟨failed, run⟩ | ⟨_, ⟨none, mt', run, _⟩ | ⟨lacks, mt', run, counted⟩⟩
        · refine ⟨fun _ => ⟨fits, .inl failed⟩, fun _ => ⟨_, _, run, fun _ => ?_⟩⟩
          exact kept.setLevel_refused here
        · exact ⟨fun _ => ⟨fits, .inr none⟩, fun _ => ⟨_, mt', run, fun fail => absurd rfl fail⟩⟩
        constructor
        · rintro ⟨r, mt₁, run₁, same⟩
          rw [run] at run₁
          cases run₁
          have elems := kept.elems
          rw [← same (by decide), counted] at elems
          omega
        · rintro ⟨_, failed | none⟩
          · contradiction
          · obtain ⟨l, missing⟩ := lacks
            exact absurd missing (none l)
    · have long : hashLength < len := Nat.lt_of_not_le short
      refine ⟨fun _ => .inr (.inl long), fun _ => ⟨.illegalParam, mt, ?_, fun _ => rfl⟩⟩
      simp [mtAdd, long]

/-- A sparing call keeps the tree current. -/
theorem step {call : MtCall} (sparing : Sparing mt call) :
    ∃ mt', callStep mt call = .ok mt' ∧
      ∃ ws', Kept mt' ws' ∧ (ws' = ws ∨ ws' = call.write ws) := by
  obtain ⟨readable, spared⟩ := sparing
  cases call with
  | add tag len allocs =>
    obtain ⟨r, mt', run, same⟩ := (kept.atomic_iff readable).mpr spared
    refine ⟨mt', by simp [callStep, MtCall.run, run], ?_⟩
    by_cases ok : r = .success
    · subst r
      have current : mt'.Represents ((ws ++ [(tag, len)]).map leafDigest) :=
        MtCall.represents_of_success kept.current
          (show (MtCall.add tag len allocs).run mt = _ from run)
      exact ⟨ws ++ [(tag, len)], ⟨current, by simp⟩, .inr rfl⟩
    · rw [same ok]
      exact ⟨ws, kept, .inl rfl⟩
  | update tag len offset =>
    by_cases accepted : (MtCall.update tag len offset).Accepted ws.length
    · obtain ⟨r, mt', run, outcome⟩ := MtCall.run_of_accepted kept.current readable
        (by simp [MtCall.isAdd]) accepted
      refine ⟨mt', by simp [callStep, run], ?_⟩
      rcases outcome with ⟨_, current⟩ | ⟨_, failed, _⟩ | ⟨_, l, failed⟩
      · refine ⟨_, ⟨current, ?_⟩, .inr rfl⟩
        intro none
        have length := congrArg List.length none
        rw [MtCall.length_write] at length
        have inRange := accepted.2.2
        simp only [List.length_nil] at length
        omega
      · cases failed
      · cases failed
    · refine ⟨mt, ?_, ws, kept, .inl rfl⟩
      rw [callStep, MtCall.run_of_not_accepted kept.current accepted]
      rfl

/-- Calls that get every block above level 0 spare the tree. -/
theorem meets {calls : List MtCall} (room : ws.length + calls.countP MtCall.isAdd ≤ 2 ^ 26)
    (readable : ∀ call ∈ calls, call.Readable)
    (allocs : ∀ call ∈ calls, ∀ l, call.allocs (l + 1) ≠ none) :
    Meets callStep Sparing mt calls := by
  induction calls generalizing mt ws with
  | nil => exact trivial
  | cons call calls ih =>
    obtain ⟨first, restRoom, skipRoom⟩ := room_cons room
    rw [List.forall_mem_cons] at readable allocs
    have here : Sparing mt call := by
      refine ⟨readable.1, ?_⟩
      cases call with
      | update tag len offset => exact trivial
      | add tag len granted =>
        refine .inr (.inr ⟨kept.elems ▸ first rfl, .inr ?_⟩)
        rintro l ⟨_, _, missing⟩
        exact allocs.1 l missing
    refine ⟨here, fun mt' stepped => ?_⟩
    obtain ⟨mt₁, stepped₁, ws', kept', wrote⟩ := kept.step here
    cases stepped.symm.trans stepped₁
    refine ih kept' ?_ readable.2 allocs.2
    obtain rfl | rfl := wrote
    · exact skipRoom
    · exact restRoom

end

end Kept

section

variable {calls : List MtCall} (sparing : Meets callStep Sparing mtCreate calls)

include sparing

theorem sparing_returns : ∃ mt, run callStep mtCreate calls = .ok mt := by
  obtain ⟨mt, ran, -⟩ := run_of_invariant (P := fun mt => ∃ ws, Kept mt ws)
    (fun mt call ⟨ws, kept⟩ here => by
      obtain ⟨mt', stepped, ws', kept', -⟩ := kept.step here
      exact ⟨mt', stepped, ws', kept'⟩) ⟨[], mtCreate_kept⟩ sparing
  exact ⟨mt, ran⟩

/-- Every tree that sparing calls build is current, for leaves that the calls wrote. -/
theorem kept_of_run {P : Written → Prop} (all : ∀ call ∈ calls, P call.written) {mt : Mt}
    (ran : run callStep mtCreate calls = .ok mt) : ∃ ws, Kept mt ws ∧ ∀ w ∈ ws, P w := by
  refine holds_of_run (P := fun mt => ∃ ws, Kept mt ws ∧ ∀ w ∈ ws, P w) ?_
    ⟨[], mtCreate_kept, by simp⟩ (sparing.and (meets_of_forall all)) ran
  rintro mt call mt' ⟨ws, kept, old⟩ ⟨here, new⟩ stepped
  obtain ⟨mt₁, stepped₁, ws', kept', wrote⟩ := kept.step here
  cases stepped.symm.trans stepped₁
  refine ⟨ws', kept', fun w mem => ?_⟩
  obtain rfl | rfl := wrote
  · exact old w mem
  · obtain mem | rfl := MtCall.mem_write mem
    · exact old w mem
    · exact new

theorem represents_of_run {mt : Mt} (ran : run callStep mtCreate calls = .ok mt) :
    ∃ xs, mt.Represents xs := by
  obtain ⟨ws, kept, -⟩ := kept_of_run (P := fun _ => True) sparing (fun _ _ => trivial) ran
  exact ⟨_, kept.current⟩

end

theorem ValidCalls.sparing {calls : List MtCall} (valid : ValidCalls calls) :
    Meets callStep Sparing mtCreate calls :=
  mtCreate_kept.meets (room_of_few valid.few) valid.readable fun call mem l =>
    valid.allocs call mem (l + 1)

theorem run_of_runCalls {calls : List MtCall} {codes : List MtError} {mt mt' : Mt}
    (ran : runCalls calls mt = .ok (codes, mt')) : run callStep mt calls = .ok mt' := by
  induction calls generalizing mt codes with
  | nil =>
    cases ran
    rfl
  | cons call calls ih =>
    simp only [runCalls, Exec.bind_eq_ok] at ran
    obtain ⟨⟨r, mt₁⟩, ran₁, ⟨rs, mt₂⟩, ran₂, done⟩ := ran
    cases done
    rw [run_cons (show callStep mt call = .ok mt₁ by simp [callStep, ran₁])]
    exact ih ran₂

/-- In a tree built by calls that all spared it, the next `mt_add` either succeeds
or leaves the tree as it was, exactly when it spares the tree too. -/
theorem mtAdd_atomic_iff {calls : List MtCall} (sparing : Meets callStep Sparing mtCreate calls)
    {mt : Mt} (ran : run callStep mtCreate calls = .ok mt) {tag : Option (List UInt8)} {len : Nat}
    {allocs : Nat → Alloc} (readable : (MtCall.add tag len allocs).Readable) :
    Atomic mt tag len allocs ↔ Spared mt.elems (.add tag len allocs) := by
  obtain ⟨ws, kept, -⟩ := kept_of_run (P := fun _ => True) sparing (fun _ _ => trivial) ran
  exact kept.atomic_iff readable

/-- The second of two additions fails to allocate its leaf. -/
theorem mtAdd_atomic_iff_sample :
    ∃ mt, run callStep mtCreate [.add (some [1]) 1 fun _ => some fun _ => 0] = .ok mt ∧
      Spared mt.elems (.add (some [2]) 1 fun _ => none) ∧
      Atomic mt (some [2]) 1 fun _ => none := by
  have readable : ∀ byte allocs, (MtCall.add (some [byte]) 1 allocs).Readable := by
    intro byte allocs tag here _
    cases here
    exact Nat.le_refl 1
  have sparing : Meets callStep Sparing mtCreate [.add (some [1]) 1 fun _ => some fun _ => 0] := by
    refine ⟨⟨readable 1 _, .inr (.inr ⟨by decide, .inr ?_⟩)⟩, fun _ _ => trivial⟩
    rintro l ⟨_, _, missing⟩
    cases missing
  have counted : (do
      let mt ← run callStep mtCreate [.add (some [1]) 1 fun _ => some fun _ => 0]
      return mt.elems) = (.ok 1 : Exec Nat) := by decide +kernel
  obtain ⟨mt, ran, elems⟩ := Exec.bind_eq_ok.mp counted
  have one : mt.elems = 1 := Except.ok.inj elems
  have spared : Spared mt.elems (.add (some [2]) 1 fun _ => none) := by
    rw [one]
    exact .inr (.inr ⟨by decide, .inl ⟨by decide, rfl⟩⟩)
  exact ⟨mt, ran, spared, (mtAdd_atomic_iff sparing ran (readable 2 _)).mpr spared⟩

/-- The second of two additions fails to allocate level 1. Its leaf is counted and
stored although the call returns an error. -/
theorem mtAdd_half_done :
    ∃ mt mt', run callStep mtCreate [.add (some [1]) 1 fun _ => some fun _ => 0] = .ok mt ∧
      mtAdd mt (some [2]) 1 (fun l => if l = 0 then some fun _ => 0 else none) =
        .ok (.outOfMemory, mt') ∧
      mt.elems = 1 ∧ mt'.elems = 2 ∧ mtLeaf mt 1 = .ok none ∧
      mtLeaf mt' 1 = .ok (some (padTag [2] 1)) := by
  have facts : (do
      let mt ← run callStep mtCreate [.add (some [1]) 1 fun _ => some fun _ => 0]
      let failed ← mtAdd mt (some [2]) 1 (fun l => if l = 0 then some fun _ => 0 else none)
      let before ← mtLeaf mt 1
      let after ← mtLeaf failed.2 1
      return (failed.1, mt.elems, failed.2.elems, decide (before = none),
        decide (after = some (padTag [2] 1)))) =
      (.ok (.outOfMemory, 1, 2, true, true) : Exec (MtError × Nat × Nat × Bool × Bool)) := by
    decide +kernel
  obtain ⟨mt, ran, facts⟩ := Exec.bind_eq_ok.mp facts
  obtain ⟨⟨r, mt'⟩, failed, facts⟩ := Exec.bind_eq_ok.mp facts
  obtain ⟨before, leaf, facts⟩ := Exec.bind_eq_ok.mp facts
  obtain ⟨after, leaf', facts⟩ := Exec.bind_eq_ok.mp facts
  simp only [Exec.pure_eq_ok, Except.ok.injEq, Prod.mk.injEq, decide_eq_true_eq] at facts
  obtain ⟨rfl, one, two, rfl, rfl⟩ := facts
  exact ⟨mt, mt', ran, failed, one, two, leaf, leaf'⟩

/-! ## Right neighbors -/

/-- The descent for a right neighbor finds the root of the leaves that the position covers, and
finds none exactly where it covers none, in every tree whose calls all spared it. -/
theorem findRightNeighbor_covered {calls : List MtCall}
    (sparing : Meets callStep Sparing mtCreate calls) {mt : Mt}
    (ran : run callStep mtCreate calls = .ok mt) {l offset : Nat} (inRange : l < treeLevels)
    (exact : offset * 2 ^ l < 2 ^ 32) :
    ∃ leaves found, mt.entries 0 = .ok leaves ∧ leaves.length = mt.elems ∧
      findRightNeighbor mt offset l = .ok found ∧ (found.isSome ↔ offset * 2 ^ l < mt.elems) ∧
      found = mth mtHashValue (covered leaves l offset) := by
  obtain ⟨xs, rep⟩ := represents_of_run sparing ran
  obtain ⟨levels, holds, stored⟩ := rep.levels
  have node := neighbor_eq_node mtHashValue (l := l) (i := offset) fun k _ => stored k
  refine ⟨xs, _, ?_, rep.elems.symm, holds.findRightNeighbor inRange exact, ?_, ?_⟩
  · rw [holds.entries (by decide), level_zero_eq (stored 0)]
  · rw [node, node_isSome_iff, rep.elems]
  · rw [node, node_eq_mth]

theorem findRightNeighbor_covered_sample :
    ∃ mt, run callStep mtCreate sampleCalls = .ok mt ∧
      findRightNeighbor mt 1 1 = .ok (mth mtHashValue [padTag [3] 1]) ∧
      findRightNeighbor mt 2 1 = .ok none := by
  obtain ⟨codes, mt, ran, -, rep⟩ := sampleCalls_valid.represents
  have ran := run_of_runCalls ran
  obtain ⟨levels, holds, stored⟩ := rep.levels
  have leaves : mt.entries 0 = .ok (leavesOf sampleCalls) := by
    rw [holds.entries (by decide), level_zero_eq (stored 0)]
  obtain ⟨xs, _, read, -, one, -, rfl⟩ := @findRightNeighbor_covered _ sampleCalls_valid.sparing
    mt ran 1 1 (by decide) (by decide)
  obtain ⟨-, _ | _, -, -, two, none, -⟩ := @findRightNeighbor_covered _ sampleCalls_valid.sparing
    mt ran 1 2 (by decide) (by decide)
  · cases leaves.symm.trans read
    exact ⟨mt, ran, one, two⟩
  · exact absurd (none.mp rfl) (by rw [rep.elems]; decide)

/-- Two leaves are added, and the second call fails to allocate level 1. -/
def failedCalls : List MtCall :=
  let fresh : Alloc := some fun _ => 0
  [.add (some [1]) 1 fun _ => fresh, .add (some [2]) 1 fun l => if l = 0 then fresh else none]

/-- The descent stops at the first of the two leaves, which is not their hash. -/
theorem failedCalls_uncovered :
    ∃ mt, run callStep mtCreate failedCalls = .ok mt ∧ mt.elems = 2 ∧
      findRightNeighbor mt 0 1 = .ok (some (padTag [1] 1)) ∧
      mth mtHashValue [padTag [1] 1, padTag [2] 1] ≠ some (padTag [1] 1) := by
  have facts : (do
      let mt ← run callStep mtCreate failedCalls
      let found ← findRightNeighbor mt 0 1
      return (mt.elems, decide (found = some (padTag [1] 1)))) =
      (.ok (2, true) : Exec (Nat × Bool)) := by decide +kernel
  have hashed : mtHashValue (padTag [1] 1) (padTag [2] 1) ≠ padTag [1] 1 := by decide +kernel
  obtain ⟨mt, ran, facts⟩ := Exec.bind_eq_ok.mp facts
  obtain ⟨found, descended, facts⟩ := Exec.bind_eq_ok.mp facts
  simp only [Exec.pure_eq_ok, Except.ok.injEq, Prod.mk.injEq, decide_eq_true_eq] at facts
  obtain ⟨two, rfl⟩ := facts
  refine ⟨mt, ran, two, descended, fun same => hashed ?_⟩
  rw [mth_of_two_le _ (by decide)] at same
  simpa [splitPoint_eq (n := 2) (l := 0) (by decide) (by decide), mth_of_length_le_one,
    List.take] using same

end Kvsev.Merkle
