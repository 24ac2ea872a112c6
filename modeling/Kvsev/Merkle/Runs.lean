import Kvsev.Merkle.Represents

/-!
# Sequences of calls

A client of the library holds a tree and calls `mt_add` and `mt_update` on it
in any order, with any arguments. Each call's result code is recorded. What
the calls wrote, as tags and lengths in leaf order, is the abstract state; the
tree represents the padded tags as long as no allocation above level 0 failed.

The two main results are about whole sequences from `mt_create`: the tree is
the reference tree of its leaves, and `mt_verify` accepts what was written last.
-/

namespace Kvsev.Merkle

open Memory HashTree

/-- One call on a tree. The tag is the memory behind the pointer, or `NULL`. -/
inductive MtCall where
  | add (tag : Option (List UInt8)) (len : Nat) (allocs : Nat → Alloc)
  | update (tag : Option (List UInt8)) (len offset : Nat)

/-- What was written for a leaf: the tag argument and its length. -/
abbrev Written := Option (List UInt8) × Nat

/-- The leaf digest a write leaves behind. -/
def leafDigest (w : Written) : Digest := padTag (w.1.getD []) w.2

variable {mt : Mt}

/-- On `2^26` leaves `mt_add` loses the leaf array. -/
theorem Mt.Represents.mtAdd_full {xs : List Digest} (rep : mt.Represents xs)
    (full : xs.length = 2 ^ 26) {tag : List UInt8} {len : Nat} (short : len ≤ hashLength)
    (readable : len ≤ tag.length) (allocs : Nat → Alloc) :
    ∃ al, mt.levelAt 0 = .ok al ∧ al.Holds xs ∧ mtAdd mt (some tag) len allocs =
      .ok (.outOfMemory, mt.setLevel 0 { al with store := .freed }) := by
  obtain ⟨levels, holds, stored⟩ := rep.levels
  obtain ⟨al, here, list⟩ := holds.levelAt (l := 0) (by decide)
  rw [level_zero_eq (stored 0)] at list
  have run := mtAlAdd_full (padTag tag len) (allocs 0) list full
  have notLong : ¬ hashLength < len := Nat.not_lt_of_le short
  refine ⟨al, here, list, ?_⟩
  simp [mtAdd, notLong, mtInitHash_of_le short readable, here, run]

namespace MtCall

def run : MtCall → Mt → Exec (MtError × Mt)
  | add tag len allocs, mt => mtAdd mt tag len allocs
  | update tag len offset, mt => mtUpdate mt tag len offset

def isAdd : MtCall → Bool
  | add .. => true
  | update .. => false

def written : MtCall → Written
  | add tag len _ => (tag, len)
  | update tag len _ => (tag, len)

/-- The allocation outcomes of the call; `mt_update` allocates nothing. -/
def allocs : MtCall → Nat → Alloc
  | add _ _ allocs => allocs
  | update .. => fun _ => some fun _ => 0

/-- The tag buffer has the promised length. -/
def Readable (call : MtCall) : Prop :=
  ∀ tag, call.written.1 = some tag → call.written.2 ≤ hashLength → call.written.2 ≤ tag.length

/-- The call passes its entry checks on a tree with `n` leaves. -/
def Accepted (n : Nat) : MtCall → Prop
  | add tag len _ => tag.isSome ∧ len ≤ hashLength
  | update tag len offset => tag.isSome ∧ len ≤ hashLength ∧ offset < n

/-- The effect of a successful call on the written tags. -/
def write (ws : List Written) : MtCall → List Written
  | add tag len _ => ws ++ [(tag, len)]
  | update tag len offset => ws.set offset (tag, len)

end MtCall

/-- Make the calls one after another and collect the result codes. -/
def runCalls : List MtCall → Mt → Exec (List MtError × Mt)
  | [], mt => return ([], mt)
  | call :: calls, mt => do
    let (r, mt) ← call.run mt
    let (rs, mt) ← runCalls calls mt
    return (r :: rs, mt)

/-- The tag and length last written at each offset, if every call succeeds. -/
def lastWritten (calls : List MtCall) : List Written := calls.foldl MtCall.write []

/-- Every call of the sequence passes its entry checks, starting with `n` leaves. -/
def AllAccepted : List MtCall → Nat → Prop
  | [], _ => True
  | call :: calls, n => call.Accepted n ∧ AllAccepted calls (n + if call.isAdd then 1 else 0)

theorem MtCall.length_write (ws : List Written) (call : MtCall) :
    (call.write ws).length = ws.length + if call.isAdd then 1 else 0 := by
  cases call <;> simp [write, isAdd]

variable {ws : List Written} {call : MtCall}

theorem MtCall.mem_write {w : Written} (mem : w ∈ call.write ws) : w ∈ ws ∨ w = call.written := by
  cases call with
  | add tag len allocs =>
    rcases List.mem_append.mp mem with old | last
    · exact .inl old
    · exact .inr (List.mem_singleton.mp last)
  | update tag len offset => exact List.mem_or_eq_of_mem_set mem

variable {calls : List MtCall}

theorem length_foldl_write (calls : List MtCall) (ws : List Written) :
    (calls.foldl MtCall.write ws).length = ws.length + calls.countP MtCall.isAdd := by
  induction calls generalizing ws with
  | nil => rfl
  | cons call calls ih =>
    rw [List.foldl_cons, ih, MtCall.length_write, List.countP_cons]
    omega

/-! ## One call -/

namespace MtCall

variable {mt : Mt} {ws : List Written} {call : MtCall}

theorem run_of_not_accepted (rep : mt.Represents (ws.map leafDigest))
    (rejected : ¬ call.Accepted ws.length) : call.run mt = .ok (.illegalParam, mt) := by
  cases call with
  | add tag len allocs =>
    cases tag with
    | none => rfl
    | some tag =>
      have long : hashLength < len := by simpa [Accepted] using rejected
      simp [run, mtAdd, long]
  | update tag len offset =>
    cases tag with
    | none => rfl
    | some tag =>
      have elems : mt.elems = ws.length := by simpa using rep.elems
      have rejected : ¬ (len ≤ hashLength ∧ offset < mt.elems) := by
        simpa [Accepted, elems] using rejected
      simp only [run, mtUpdate, if_neg rejected, Exec.pure_eq_ok]

/-- An accepted call writes its tag, or an allocation failed. After a failure at
level 0 the tree is as it was. -/
theorem run_of_accepted (rep : mt.Represents (ws.map leafDigest)) (readable : call.Readable)
    (room : call.isAdd → ws.length < 2 ^ 26) (accepted : call.Accepted ws.length) :
    ∃ r mt', call.run mt = .ok (r, mt') ∧
      (r = .success ∧ mt'.Represents ((call.write ws).map leafDigest) ∨
        r = .outOfMemory ∧ call.allocs 0 = none ∧ mt'.Represents (ws.map leafDigest) ∨
        r = .outOfMemory ∧ ∃ l, call.allocs (l + 1) = none) := by
  cases call with
  | add tag len allocs =>
    obtain ⟨present, short⟩ := accepted
    obtain ⟨tag, rfl⟩ := Option.isSome_iff_exists.mp present
    have added := mtAdd_spec rep (by simpa using room rfl) short (readable tag rfl short) allocs
    simpa [run, write, MtCall.allocs, leafDigest] using added
  | update tag len offset =>
    obtain ⟨present, short, inRange⟩ := accepted
    obtain ⟨tag, rfl⟩ := Option.isSome_iff_exists.mp present
    have inLeaves : offset < (ws.map leafDigest).length := by simpa using inRange
    obtain ⟨mt', ran, rep'⟩ := mtUpdate_spec rep short (readable tag rfl short) inLeaves
    refine ⟨.success, mt', ran, .inl ⟨rfl, ?_⟩⟩
    simpa [write, List.map_set, leafDigest] using rep'

/-- A call that returned `MT_SUCCESS` had a buffer of the promised length. -/
theorem readable_of_success {mt' : Mt} (ran : call.run mt = .ok (.success, mt')) :
    call.Readable := by
  intro tag here short
  by_contra unreadable
  have cut := Nat.lt_of_not_le unreadable
  cases call with
  | add _ len allocs =>
    obtain rfl : _ = some tag := here
    have init : mtInitHash tag len = .error .invalidAccess := mtInitHash_of_lt short cut
    have notLong : ¬ hashLength < len := Nat.not_lt_of_le short
    simp [run, mtAdd, notLong, init] at ran
  | update _ len offset =>
    obtain rfl : _ = some tag := here
    have init : mtInitHash tag len = .error .invalidAccess := mtInitHash_of_lt short cut
    by_cases inRange : len ≤ hashLength ∧ offset < mt.elems
    · simp [run, mtUpdate, inRange, init] at ran
    · simp [run, mtUpdate, inRange] at ran

theorem room_of_success (rep : mt.Represents (ws.map leafDigest)) {mt' : Mt}
    (ran : call.run mt = .ok (.success, mt')) (add : call.isAdd) : ws.length < 2 ^ 26 := by
  have fits : ws.length ≤ 2 ^ 26 := by simpa using rep.fits
  refine Nat.lt_of_le_of_ne fits fun full => ?_
  have length : (ws.map leafDigest).length = 2 ^ 26 := by simpa using full
  have readable := readable_of_success ran
  by_cases accepted : call.Accepted ws.length
  · cases call with
    | update => cases add
    | add tag len allocs =>
      obtain ⟨present, short⟩ := accepted
      obtain ⟨tag, rfl⟩ := Option.isSome_iff_exists.mp present
      obtain ⟨al, -, -, failed⟩ := rep.mtAdd_full length short (readable tag rfl short) allocs
      cases failed.symm.trans ran
  · cases (run_of_not_accepted rep accepted).symm.trans ran

/-- A successful call has its full effect. -/
theorem represents_of_success (rep : mt.Represents (ws.map leafDigest)) {mt' : Mt}
    (ran : call.run mt = .ok (.success, mt')) :
    mt'.Represents ((call.write ws).map leafDigest) := by
  by_cases accepted : call.Accepted ws.length
  · obtain ⟨r, mt₁, ran₁, outcome⟩ :=
      run_of_accepted rep (readable_of_success ran) (room_of_success rep ran) accepted
    rw [ran] at ran₁
    cases ran₁
    rcases outcome with ⟨_, rep'⟩ | ⟨fail, _⟩ | ⟨fail, _⟩
    · exact rep'
    · exact absurd fail (by decide)
    · exact absurd fail (by decide)
  · rw [run_of_not_accepted rep accepted] at ran
    cases ran

end MtCall

/-! ## Whole sequences -/

section

variable {mt mt' : Mt} {ws : List Written} {calls : List MtCall}

/-- Room for the first call and for the rest of a sequence. -/
theorem room_cons {call : MtCall}
    (room : ws.length + (call :: calls).countP MtCall.isAdd ≤ 2 ^ 26) :
    (call.isAdd → ws.length < 2 ^ 26) ∧
      (call.write ws).length + calls.countP MtCall.isAdd ≤ 2 ^ 26 ∧
      ws.length + calls.countP MtCall.isAdd ≤ 2 ^ 26 := by
  rw [List.countP_cons] at room
  rw [MtCall.length_write]
  refine ⟨fun add => ?_, ?_, ?_⟩
  · simp only [add, if_true] at room
    omega
  · omega
  · omega

/-- What every successful call keeps, calls that all succeed keep. -/
theorem all_success_rule {P : Mt → List Written → Prop} {codes : List MtError}
    (step : ∀ {mt mt₁ ws} {call : MtCall}, P mt ws → call.run mt = .ok (.success, mt₁) →
      P mt₁ (call.write ws))
    (start : P mt ws) (ran : runCalls calls mt = .ok (codes, mt'))
    (ok : ∀ r ∈ codes, r = .success) : P mt' (calls.foldl MtCall.write ws) := by
  induction calls generalizing mt ws codes with
  | nil =>
    cases ran
    exact start
  | cons call calls ih =>
    simp only [runCalls, Exec.bind_eq_ok] at ran
    obtain ⟨⟨r, mt₁⟩, ran₁, ⟨rs, mt₂⟩, ran₂, done⟩ := ran
    cases done
    obtain rfl : r = .success := ok r List.mem_cons_self
    refine ih (step start ran₁) ran₂ fun r mem => ?_
    exact ok r (List.mem_cons_of_mem _ mem)

theorem runCalls_success (rep : mt.Represents (ws.map leafDigest))
    (room : ws.length + calls.countP MtCall.isAdd ≤ 2 ^ 26)
    (readable : ∀ call ∈ calls, call.Readable) (accepted : AllAccepted calls ws.length)
    (allocs : ∀ call ∈ calls, ∀ l, call.allocs l ≠ none) :
    ∃ codes mt', runCalls calls mt = .ok (codes, mt') ∧ ∀ r ∈ codes, r = .success := by
  induction calls generalizing mt ws with
  | nil => exact ⟨[], mt, rfl, by simp⟩
  | cons call calls ih =>
    obtain ⟨first, restRoom, _⟩ := room_cons room
    obtain ⟨here, rest⟩ := accepted
    rw [← MtCall.length_write] at rest
    have allocated := allocs call List.mem_cons_self
    obtain ⟨r, mt₁, ran₁, outcome⟩ :=
      MtCall.run_of_accepted rep (readable call List.mem_cons_self) first here
    rcases outcome with ⟨rfl, rep₁⟩ | ⟨_, failed, _⟩ | ⟨_, l, failed⟩
    · obtain ⟨codes, mt₂, ran₂, ok⟩ := ih rep₁ restRoom
        (fun c mem => readable c (List.mem_cons_of_mem _ mem)) rest
        (fun c mem => allocs c (List.mem_cons_of_mem _ mem))
      refine ⟨.success :: codes, mt₂, by simp [runCalls, ran₁, ran₂], ?_⟩
      simpa using ok
    · exact absurd failed (allocated 0)
    · exact absurd failed (allocated (l + 1))

end

/-! ## The reference tree -/

/-- All entries of one level, read with `mt_al_get`. -/
def Mt.entries (mt : Mt) (l : Nat) : Exec (List Digest) := do
  let al ← mt.levelAt l
  (List.range (mtAlGetSize al)).mapM fun i => do Exec.access (← mtAlGet al i)

/-- The level arrays of the reference tree over the leaves `x`. Where an entry
is not stored, `neighbor` continues with the left child. -/
structure IsReferenceTree (x : List Digest) (levels : Nat → List Digest) : Prop where
  leaves : levels 0 = x
  size : ∀ l, (levels (l + 1)).length = (x.length + 2 ^ l - 1) / 2 ^ (l + 1)
  entry : ∀ l i, i < (levels (l + 1)).length →
    ∃ left right digest, neighbor levels l (2 * i) = some left ∧
      neighbor levels l (2 * i + 1) = some right ∧
      mtHash (some left) (some right) = .ok digest ∧ (levels (l + 1))[i]? = some digest

private theorem mapM_range_lookup (f : Nat → Exec Digest) (ys : List Digest)
    (lookup : ∀ i (h : i < ys.length), f i = .ok ys[i]) (k : Nat) (le : k ≤ ys.length) :
    (List.range k).mapM f = .ok (ys.take k) := by
  induction k with
  | zero => rfl
  | succ k ih =>
    rw [List.range_succ, List.mapM_append, ih (Nat.le_of_succ_le le), Exec.ok_bind]
    simp only [List.mapM_cons, List.mapM_nil, lookup k le, Exec.ok_bind, Exec.pure_eq_ok]
    rw [List.take_append_getElem]

theorem Mt.HoldsLevels.entries {levels : Nat → List Digest}
    (holds : mt.HoldsLevels levels) {l : Nat} (inRange : l < treeLevels) :
    mt.entries l = .ok (levels l) := by
  obtain ⟨al, here, list⟩ := holds.levelAt inRange
  have all := mapM_range_lookup (fun i => do Exec.access (← mtAlGet al i)) (levels l)
    (fun i h => by simp [list.get, h]) (levels l).length (Nat.le_refl _)
  rw [Mt.entries, here, Exec.ok_bind, list.getSize, all, List.take_length]

theorem isReferenceTree_of_isLevel {x : List Digest} {levels : Nat → List Digest}
    (stored : ∀ l, IsLevel mtHashValue x l (levels l)) : IsReferenceTree x levels := by
  refine ⟨level_zero_eq (stored 0), fun l => (stored (l + 1)).length, fun l i lt => ?_⟩
  have inLevel : i < width x.length (l + 1) := (stored (l + 1)).length ▸ lt
  obtain ⟨a, b, left, right, parent⟩ := node_of_lt_width mtHashValue inLevel
  refine ⟨a, b, mtHashValue a b, ?_, ?_, mtHash_some a b, ?_⟩
  · rw [neighbor_eq_node mtHashValue fun k _ => stored k, left]
  · rw [neighbor_eq_node mtHashValue fun k _ => stored k, right]
  · rw [(stored (l + 1)).get inLevel, parent]

/-- Two lists that are the same level of the same leaves are equal. -/
theorem isLevel_unique {x ys zs : List Digest} {l : Nat} (first : IsLevel mtHashValue x l ys)
    (second : IsLevel mtHashValue x l zs) : ys = zs := by
  have same : ys.length = zs.length := first.length.trans second.length.symm
  refine List.ext_getElem? fun i => ?_
  by_cases inRange : i < ys.length
  · rw [first.entry i inRange, second.entry i (same ▸ inRange)]
  · have out := Nat.le_of_not_lt inRange
    rw [List.getElem?_eq_none out, List.getElem?_eq_none (same ▸ out)]

/-- A sequence of calls from `mt_create` inside the documented limits. -/
structure ValidCalls (calls : List MtCall) : Prop where
  readable : ∀ call ∈ calls, call.Readable
  accepted : AllAccepted calls 0
  allocs : ∀ call ∈ calls, ∀ l, call.allocs l ≠ none
  few : (lastWritten calls).length ≤ 2 ^ 26

/-- The leaves after the calls: the tags last written, padded with zeroes. -/
def leavesOf (calls : List MtCall) : List Digest := (lastWritten calls).map leafDigest

/-- If every call succeeded, the tree represents what was written last. -/
theorem represents_of_all_success {codes : List MtError}
    (ran : runCalls calls mtCreate = .ok (codes, mt)) (ok : ∀ r ∈ codes, r = .success) :
    mt.Represents (leavesOf calls) :=
  all_success_rule (P := fun mt ws => mt.Represents (ws.map leafDigest))
    (fun rep ran => MtCall.represents_of_success rep ran) mtCreate_represents ran ok

theorem room_of_few (few : (lastWritten calls).length ≤ 2 ^ 26) :
    ([] : List Written).length + calls.countP MtCall.isAdd ≤ 2 ^ 26 := by
  rwa [lastWritten, length_foldl_write] at few

theorem ValidCalls.represents (valid : ValidCalls calls) :
    ∃ codes mt, runCalls calls mtCreate = .ok (codes, mt) ∧ (∀ r ∈ codes, r = .success) ∧
      mt.Represents (leavesOf calls) := by
  have room := room_of_few valid.few
  have empty : mtCreate.Represents (([] : List Written).map leafDigest) := mtCreate_represents
  obtain ⟨codes, mt, ran, ok⟩ := runCalls_success empty room valid.readable valid.accepted
    valid.allocs
  exact ⟨codes, mt, ran, ok, represents_of_all_success ran ok⟩

/-- Every tree built by accepted calls is the reference tree of its leaves, its
root is the recursive root of the leaves, and any other sequence that ends with
the same leaves builds the same levels and root. -/
theorem runCalls_referenceTree (calls : List MtCall) (valid : ValidCalls calls) :
    ∃ codes mt levels, runCalls calls mtCreate = .ok (codes, mt) ∧
      (∀ r ∈ codes, r = .success) ∧
      mt.elems = (leavesOf calls).length ∧
      (∀ l, l < treeLevels → mt.entries l = .ok (levels l)) ∧
      IsReferenceTree (leavesOf calls) levels ∧
      (1 ≤ (leavesOf calls).length →
        ∃ root, mth mtHashValue (leavesOf calls) = some root ∧ mtGetRoot mt = .ok root) ∧
      ∀ calls', ValidCalls calls' → leavesOf calls' = leavesOf calls →
        ∃ codes' mt', runCalls calls' mtCreate = .ok (codes', mt') ∧ mt'.elems = mt.elems ∧
          ∀ l, l < treeLevels → mt'.entries l = mt.entries l := by
  obtain ⟨codes, mt, ran, ok, rep⟩ := valid.represents
  obtain ⟨levels, holds, stored⟩ := rep.levels
  refine ⟨codes, mt, levels, ran, ok, rep.elems, fun l inRange => holds.entries inRange,
    isReferenceTree_of_isLevel stored, rep.getRoot, fun calls' valid' same => ?_⟩
  obtain ⟨codes', mt', ran', _, rep'⟩ := valid'.represents
  obtain ⟨levels', holds', stored'⟩ := rep'.levels
  refine ⟨codes', mt', ran', ?_, fun l inRange => ?_⟩
  · rw [rep'.elems, rep.elems, same]
  · rw [holds'.entries inRange, holds.entries inRange]
    exact congrArg _ (isLevel_unique (same ▸ stored' l) (stored l))

/-- Three leaves are added, the first one of them is overwritten. -/
def sampleCalls : List MtCall :=
  let fresh : Nat → Alloc := fun _ => some fun _ => 0
  [.add (some [1]) 1 fresh, .add (some [2]) 1 fresh, .add (some [3]) 1 fresh,
    .update (some [4, 5]) 2 0]

theorem sampleCalls_valid : ValidCalls sampleCalls where
  readable := by
    intro call mem tag here short
    simp only [sampleCalls, List.mem_cons, List.not_mem_nil, or_false] at mem
    rcases mem with rfl | rfl | rfl | rfl <;> cases here <;> decide
  accepted := by simp [sampleCalls, AllAccepted, MtCall.Accepted, MtCall.isAdd, hashLength]
  allocs := by
    intro call mem l
    simp only [sampleCalls, List.mem_cons, List.not_mem_nil, or_false] at mem
    rcases mem with rfl | rfl | rfl | rfl <;> simp [MtCall.allocs]
  few := by decide

theorem runCalls_referenceTree_sample :
    ∃ codes mt root, runCalls sampleCalls mtCreate = .ok (codes, mt) ∧ mt.elems = 3 ∧
      mth mtHashValue (leavesOf sampleCalls) = some root ∧ mtGetRoot mt = .ok root := by
  obtain ⟨codes, mt, _, ran, _, elems, _, _, root, _⟩ :=
    runCalls_referenceTree sampleCalls sampleCalls_valid
  obtain ⟨root, spec, read⟩ := root (by decide)
  exact ⟨codes, mt, root, ran, elems, spec, read⟩

/-! ## Completeness of verification -/

/-- A tag the library accepted. -/
def Written.Stored (w : Written) : Prop :=
  ∃ tag, w.1 = some tag ∧ w.2 ≤ hashLength ∧ w.2 ≤ tag.length

theorem MtCall.stored_of_success {mt' : Mt}
    (rep : mt.Represents (ws.map leafDigest)) (ran : call.run mt = .ok (.success, mt')) :
    call.written.Stored := by
  have accepted : call.Accepted ws.length := by
    by_contra rejected
    rw [run_of_not_accepted rep rejected] at ran
    cases ran
  have readable := readable_of_success ran
  cases call with
  | add tag len allocs =>
    obtain ⟨present, short⟩ := accepted
    obtain ⟨tag, rfl⟩ := Option.isSome_iff_exists.mp present
    exact ⟨tag, rfl, short, readable tag rfl short⟩
  | update tag len offset =>
    obtain ⟨present, short, _⟩ := accepted
    obtain ⟨tag, rfl⟩ := Option.isSome_iff_exists.mp present
    exact ⟨tag, rfl, short, readable tag rfl short⟩

theorem MtCall.stored_write (stored : ∀ w ∈ ws, w.Stored) (new : call.written.Stored) :
    ∀ w ∈ call.write ws, w.Stored := by
  intro w mem
  rcases mem_write mem with old | rfl
  · exact stored w old
  · exact new

/-- Everything that is in the tree after successful calls was accepted. -/
theorem stored_of_all_success {mt' : Mt}
    {codes : List MtError} (rep : mt.Represents (ws.map leafDigest)) (stored : ∀ w ∈ ws, w.Stored)
    (ran : runCalls calls mt = .ok (codes, mt')) (ok : ∀ r ∈ codes, r = .success) :
    ∀ w ∈ calls.foldl MtCall.write ws, w.Stored := by
  refine (all_success_rule (P := fun mt ws => mt.Represents (ws.map leafDigest) ∧
    ∀ w ∈ ws, w.Stored) ?_ ⟨rep, stored⟩ ran ok).2
  intro mt mt₁ ws call ⟨rep, stored⟩ ran
  exact ⟨MtCall.represents_of_success rep ran,
    MtCall.stored_write stored (MtCall.stored_of_success rep ran)⟩

/-- After calls that all returned `MT_SUCCESS`, `mt_verify` accepts at every
offset the tag and length that were written there last. -/
theorem mtVerify_lastWritten (calls : List MtCall) (codes : List MtError) (mt : Mt)
    (ran : runCalls calls mtCreate = .ok (codes, mt)) (ok : ∀ r ∈ codes, r = .success) :
    mt.elems = (lastWritten calls).length ∧
      ∀ i tag len, (lastWritten calls)[i]? = some (tag, len) →
        mtVerify mt tag len i = .ok .success := by
  have rep := represents_of_all_success ran ok
  refine ⟨by simpa [leavesOf] using rep.elems, fun i tag len last => ?_⟩
  obtain ⟨tag', here, short, readable⟩ := stored_of_all_success mtCreate_represents
    (by simp) ran ok (tag, len) (List.mem_of_getElem? last)
  obtain rfl : tag = some tag' := here
  refine rep.verify short readable ?_
  rw [leavesOf, List.getElem?_map, last]
  rfl

theorem mtVerify_lastWritten_sample :
    ∃ codes mt, runCalls sampleCalls mtCreate = .ok (codes, mt) ∧
      mtVerify mt (some [4, 5]) 2 0 = .ok .success ∧
      mtVerify mt (some [3]) 1 2 = .ok .success := by
  obtain ⟨codes, mt, ran, ok, _⟩ := sampleCalls_valid.represents
  have accepts := (mtVerify_lastWritten sampleCalls codes mt ran ok).2
  exact ⟨codes, mt, ran, accepts 0 _ _ rfl, accepts 2 _ _ rfl⟩

end Kvsev.Merkle
