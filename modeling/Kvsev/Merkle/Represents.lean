import Kvsev.HashTree.Root
import Kvsev.HashTree.Update
import Kvsev.Merkle.Levels

/-!
# Trees that are current for a list of leaves

`Mt.Represents` relates a tree to its leaves: every level holds exactly the
stored nodes of the hash tree over them. `mt_add` and `mt_update` both write
leaf first and then repair one level after another on the way up, so both loops
keep `Mt.RefreshedUpTo`: the levels up to the current one belong to the new
leaves, the levels above still to the old ones.
-/

namespace Kvsev.Merkle

open Memory HashTree

/-- The tree is the hash tree over the leaves `xs`. -/
structure Mt.Represents (mt : Mt) (xs : List Digest) : Prop where
  elems : mt.elems = xs.length
  levels : ∃ levels, mt.HoldsLevels levels ∧ ∀ l, IsLevel mtHashValue xs l (levels l)

/-- The levels up to `l` are current for `new`, the others for `old`. -/
structure Mt.RefreshedUpTo (mt : Mt) (levels : Nat → List Digest) (old new : List Digest)
    (l : Nat) : Prop where
  holds : mt.HoldsLevels levels
  current : ∀ k, k ≤ l → IsLevel mtHashValue new k (levels k)
  pending : ∀ k, l < k → IsLevel mtHashValue old k (levels k)

theorem mtCreate_represents : mtCreate.Represents [] := by
  refine ⟨rfl, fun _ => [], mtCreate_holdsLevels, fun l => ⟨?_, fun i lt => absurd lt (by simp)⟩⟩
  cases l with
  | zero => rfl
  | succ l =>
    refine (Nat.eq_zero_of_not_pos fun pos => ?_).symm
    have := width_succ_pos_iff.mp pos
    exact Nat.not_lt_zero _ this

namespace Mt.Represents

variable {mt : Mt} {xs : List Digest}

theorem shaped (rep : mt.Represents xs) :
    ∃ levels, mt.Shaped levels xs.length ∧ ∀ l, IsLevel mtHashValue xs l (levels l) := by
  obtain ⟨levels, holds, stored⟩ := rep.levels
  exact ⟨levels, ⟨holds, fun l => (stored l).length⟩, stored⟩

theorem fits (rep : mt.Represents xs) : xs.length ≤ 2 ^ 26 := by
  obtain ⟨levels, shaped, _⟩ := rep.shaped
  exact shaped.fits

end Mt.Represents

variable {xs : List Digest}

/-- The top level of a current tree holds its root. -/
theorem root_entry {levels : Nat → List Digest} (nonempty : 0 < xs.length)
    (stored : ∀ l, IsLevel mtHashValue xs l (levels l)) :
    (levels (depth xs.length))[0]? = node mtHashValue xs (depth xs.length) 0 :=
  (stored _).get (width_depth_pos nonempty)

namespace Mt.RefreshedUpTo

variable {mt : Mt} {levels : Nat → List Digest} {old new : List Digest} {l : Nat}

/-- Writing the leaf level starts the repair. -/
theorem start {ys : List Digest} {al : MtAl} (holds : mt.HoldsLevels levels)
    (stored : ∀ k, IsLevel mtHashValue old k (levels k)) (list : al.Holds ys)
    (leaves : IsLevel mtHashValue new 0 ys) :
    (mt.setLevel 0 al).RefreshedUpTo (Function.update levels 0 ys) old new 0 := by
  refine ⟨holds.setLevel list, fun k low => ?_, fun k high => ?_⟩
  · obtain rfl : k = 0 := Nat.le_zero.mp low
    simpa using leaves
  · have ne : k ≠ 0 := Nat.ne_of_gt high
    simpa [ne] using stored k

theorem setLevel {ys : List Digest} {al : MtAl} (part : mt.RefreshedUpTo levels old new l)
    (list : al.Holds ys) (repaired : IsLevel mtHashValue new (l + 1) ys) :
    (mt.setLevel (l + 1) al).RefreshedUpTo (Function.update levels (l + 1) ys) old new (l + 1) := by
  refine ⟨part.holds.setLevel list, fun k low => ?_, fun k high => ?_⟩
  · by_cases here : k = l + 1
    · subst k
      simpa using repaired
    · simpa [here] using part.current k (by omega)
  · have ne : k ≠ l + 1 := Nat.ne_of_gt high
    simpa [ne] using part.pending k (by omega)

/-- A level that needs no repair. -/
theorem skip (part : mt.RefreshedUpTo levels old new l)
    (unchanged : IsLevel mtHashValue new (l + 1) (levels (l + 1))) :
    mt.RefreshedUpTo levels old new (l + 1) := by
  refine ⟨part.holds, fun k low => ?_, fun k high => part.pending k (by omega)⟩
  by_cases here : k = l + 1
  · subst k
    exact unchanged
  · exact part.current k (by omega)

end Mt.RefreshedUpTo

/-! ## Adding a leaf -/

section

variable {mt : Mt} {levels : Nat → List Digest} {xs : List Digest} {x : Digest} {l : Nat}

/-- The stored digest to the left of the path of a new leaf. -/
private theorem left_of_path (part : mt.RefreshedUpTo levels xs (xs ++ [x]) l)
    (pos : 0 < xs.length / 2 ^ l) :
    ∃ a, (levels l)[xs.length / 2 ^ l - 1]? = some a ∧
      node mtHashValue xs l (xs.length / 2 ^ l - 1) = some a := by
  have complete := complete_left_of_path pos
  have inLevel : xs.length / 2 ^ l - 1 < width (xs ++ [x]).length l := by
    refine lt_width_of_complete (Nat.le_trans complete ?_)
    simp
  have old : node mtHashValue (xs ++ [x]) l (xs.length / 2 ^ l - 1) =
      node mtHashValue xs l (xs.length / 2 ^ l - 1) := node_append_of_complete _ complete
  obtain ⟨a, ha⟩ := Option.isSome_iff_exists.mp
    (node_isSome_of_lt_width mtHashValue inLevel)
  refine ⟨a, ?_, old ▸ ha⟩
  rw [(part.current l (Nat.le_refl l)).get inLevel, ha]

theorem mtAddLoop_stop (allocs : Nat → Alloc) (fuel : Nat) (mt : Mt) (digest : Digest) (l : Nat) :
    mtAddLoop allocs fuel mt digest 0 l = .ok (.success, mt, digest, 0, l) := by
  cases fuel <;> simp [mtAddLoop]

/-- On an even position one iteration only moves up. -/
theorem mtAddLoop_even (allocs : Nat → Alloc) (fuel : Nat) (mt : Mt) (digest : Digest)
    {q l : Nat} (pos : 0 < q) (inRange : l < treeLevels) (even : q % 2 = 0) :
    mtAddLoop allocs (fuel + 1) mt digest q l =
      mtAddLoop allocs fuel mt digest (q / 2) (l + 1) := by
  simp [mtAddLoop, pos, inRange, mtRight_eq, even, Nat.shiftRight_one]

/-- On an odd position it hashes with the left neighbor and writes the parent. -/
theorem mtAddLoop_odd (allocs : Nat → Alloc) (fuel : Nat) (digest : Digest) {q : Nat} {a : Digest}
    {r : MtError} {al al' : MtAl} (holds : mt.HoldsLevels levels) (inRange : l < treeLevels)
    (odd : q % 2 = 1) (left : (levels l)[q - 1]? = some a) (above : mt.levelAt (l + 1) = .ok al)
    (run : mtAlAddOrUpdate al (some (mtHashValue a digest)) (q / 2) (allocs (l + 1)) =
      .ok (r, al')) :
    mtAddLoop allocs (fuel + 1) mt digest q l =
      if r ≠ .success then .ok (r, mt.setLevel (l + 1) al', mtHashValue a digest, q, l)
      else mtAddLoop allocs fuel (mt.setLevel (l + 1) al') (mtHashValue a digest) (q / 2)
        (l + 1) := by
  obtain ⟨here, get, list⟩ := holds.levelAt inRange
  have pos : 0 < q := by omega
  simp [mtAddLoop, pos, inRange, mtRight_eq, odd, get, list.get, left, mtHash_some, above,
    Nat.shiftRight_one, run]

/-- Level `l + 1` gets one more entry with leaf number `n + 1` and its block is
full, but the allocation fails. -/
def LacksBlock (allocs : Nat → Alloc) (n l : Nat) : Prop :=
  n % 2 ^ (l + 1) = 2 ^ l ∧ needsBlock (n / 2 ^ (l + 1)) = true ∧ allocs (l + 1) = none

theorem not_lacksBlock_of_even {allocs : Nat → Alloc} {n : Nat} (even : n / 2 ^ l % 2 = 0) :
    ¬ LacksBlock allocs n l := by
  rintro ⟨lowest, _⟩
  have split := Nat.mod_mul (x := n) (a := 2 ^ l) (b := 2)
  have small := Nat.mod_lt n (Nat.two_pow_pos l)
  rw [← Nat.pow_succ, even, Nat.mul_zero, Nat.add_zero, lowest] at split
  omega

/-- One iteration of the loop of `mt_add` repairs one level, or stops because
that level lacks a block. -/
theorem mtAddLoop_step (allocs : Nat → Alloc) (fuel : Nat) (digest : Digest)
    (part : mt.RefreshedUpTo levels xs (xs ++ [x]) l)
    (path : node mtHashValue (xs ++ [x]) l (xs.length / 2 ^ l) = some digest)
    (fits : xs.length < 2 ^ 26) (pow : 2 ^ l ≤ xs.length) :
    (LacksBlock allocs xs.length l ∧ ∃ mt' digest' q' l',
        mtAddLoop allocs (fuel + 1) mt digest (xs.length / 2 ^ l) l =
          .ok (.outOfMemory, mt', digest', q', l') ∧ mt'.elems = mt.elems) ∨
      ¬ LacksBlock allocs xs.length l ∧ ∃ mt' levels' digest',
        mtAddLoop allocs (fuel + 1) mt digest (xs.length / 2 ^ l) l =
          mtAddLoop allocs fuel mt' digest' (xs.length / 2 ^ (l + 1)) (l + 1) ∧
        mt'.elems = mt.elems ∧ mt'.RefreshedUpTo levels' xs (xs ++ [x]) (l + 1) ∧
        node mtHashValue (xs ++ [x]) (l + 1) (xs.length / 2 ^ (l + 1)) = some digest' := by
  have pos : 0 < xs.length / 2 ^ l := Nat.div_pos pow (Nat.two_pow_pos l)
  have below : l < 26 := (Nat.pow_lt_pow_iff_right (by decide)).mp (Nat.lt_of_le_of_lt pow fits)
  have inRange : l < treeLevels := by simp only [treeLevels]; omega
  have inRange' : l + 1 < treeLevels := by simp only [treeLevels]; omega
  have half : xs.length / 2 ^ l / 2 = xs.length / 2 ^ (l + 1) := by
    rw [Nat.div_div_eq_div_mul, ← Nat.pow_succ]
  have pending := part.pending (l + 1) (Nat.lt_succ_self l)
  rcases Nat.mod_two_eq_zero_or_one (xs.length / 2 ^ l) with even | odd
  · have parent := node_append_path_of_even mtHashValue (x := x) even
    rw [half, path] at parent
    refine .inr ⟨not_lacksBlock_of_even even, mt, levels, digest, ?_, rfl,
      part.skip (pending.append_of_even mtHashValue even), parent⟩
    rw [mtAddLoop_even allocs fuel mt digest pos inRange even, half]
  obtain ⟨a, stored, left⟩ := left_of_path part pos
  obtain ⟨al, above, list⟩ := part.holds.levelAt inRange'
  have parent : node mtHashValue (xs ++ [x]) (l + 1) (xs.length / 2 ^ l / 2) =
      some (mtHashValue a digest) := by
    rw [node_append_path_of_odd _ odd, left, path, join_some_some]
  have slot : xs.length / 2 ^ l / 2 ≤ (levels (l + 1)).length := by
    rw [pending.length]
    exact (width_append_of_odd odd).1
  have small : xs.length / 2 ^ l / 2 < 2 ^ 26 :=
    Nat.lt_of_le_of_lt (Nat.le_trans (Nat.div_le_self _ _) (Nat.div_le_self _ _)) fits
  have lacks : LacksBlock allocs xs.length l ↔
      xs.length / 2 ^ l / 2 = (levels (l + 1)).length ∧
        needsBlock (xs.length / 2 ^ l / 2) = true ∧ allocs (l + 1) = none := by
    rw [LacksBlock, ← width_eq_path_iff odd, pending.length, half, eq_comm]
  rcases list.addOrUpdate_outcome (mtHashValue a digest) (allocs (l + 1)) slot small with
    ⟨al', atEnd, needed, failed, run⟩ | ⟨lucky, al', run, written⟩
  · refine .inl ⟨lacks.mpr ⟨atEnd, needed, failed⟩, mt.setLevel (l + 1) al', mtHashValue a digest,
      xs.length / 2 ^ l, l, ?_, rfl⟩
    rw [mtAddLoop_odd allocs fuel digest part.holds inRange odd stored above run,
      if_pos (by simp)]
  · have repaired := pending.append_of_odd mtHashValue odd parent
    refine .inr ⟨fun missing => lucky (lacks.mp missing), mt.setLevel (l + 1) al', _,
      mtHashValue a digest, ?_, rfl, part.setLevel written repaired, half ▸ parent⟩
    rw [mtAddLoop_odd allocs fuel digest part.holds inRange odd stored above run,
      if_neg (by simp), half]

/-- What the loop of `mt_add` leaves behind from level `l` on. It ends at a level
that covers the new leaf with a single node, or at one that lacks a block. -/
structure AddLoopResult (allocs : Nat → Alloc) (xs : List Digest) (x : Digest) (l : Nat)
    (r : MtError) (mt' : Mt) (digest' : Digest) (q' l' : Nat) : Prop where
  outcome : r = .success ∧ (∀ k, l ≤ k → ¬ LacksBlock allocs xs.length k) ∨
    r = .outOfMemory ∧ ∃ k, LacksBlock allocs xs.length k
  done : r = .success → q' = 0 ∧ l' ≤ 26 ∧ xs.length < 2 ^ l' ∧
    node mtHashValue (xs ++ [x]) l' 0 = some digest' ∧ 0 < width (xs ++ [x]).length l' ∧
    ∃ levels', mt'.RefreshedUpTo levels' xs (xs ++ [x]) l'

/-- Where the path has ended nothing is left to do, and no level above grows. -/
theorem mtAddLoop_apex (allocs : Nat → Alloc) (fuel : Nat) (digest : Digest)
    (part : mt.RefreshedUpTo levels xs (xs ++ [x]) l)
    (path : node mtHashValue (xs ++ [x]) l (xs.length / 2 ^ l) = some digest)
    (reach : 0 < width (xs ++ [x]).length l) (low : l ≤ 26) (apex : xs.length < 2 ^ l) :
    mtAddLoop allocs fuel mt digest (xs.length / 2 ^ l) l = .ok (.success, mt, digest, 0, l) ∧
      AddLoopResult allocs xs x l .success mt digest 0 l := by
  rw [Nat.div_eq_of_lt apex] at path ⊢
  refine ⟨mtAddLoop_stop .., .inl ⟨rfl, ?_⟩, fun _ => ⟨rfl, low, apex, path, reach, levels, part⟩⟩
  intro k high
  apply not_lacksBlock_of_even
  have power : 2 ^ l ≤ 2 ^ k := Nat.pow_le_pow_right (by decide) high
  rw [Nat.div_eq_of_lt (Nat.lt_of_lt_of_le apex power)]

theorem mtAddLoop_spec (allocs : Nat → Alloc) (fuel : Nat) (digest : Digest)
    (part : mt.RefreshedUpTo levels xs (xs ++ [x]) l)
    (path : node mtHashValue (xs ++ [x]) l (xs.length / 2 ^ l) = some digest)
    (reach : 0 < width (xs ++ [x]).length l) (fits : xs.length < 2 ^ 26) (low : l ≤ 26)
    (enough : xs.length < 2 ^ (l + fuel)) :
    ∃ r mt' digest' q' l',
      mtAddLoop allocs fuel mt digest (xs.length / 2 ^ l) l = .ok (r, mt', digest', q', l') ∧
      mt'.elems = mt.elems ∧ AddLoopResult allocs xs x l r mt' digest' q' l' := by
  induction fuel generalizing mt levels digest l with
  | zero =>
    obtain ⟨run, result⟩ := mtAddLoop_apex allocs 0 digest part path reach low enough
    exact ⟨_, _, _, _, _, run, rfl, result⟩
  | succ fuel ih =>
    by_cases apex : xs.length < 2 ^ l
    · obtain ⟨run, result⟩ := mtAddLoop_apex allocs (fuel + 1) digest part path reach low apex
      exact ⟨_, _, _, _, _, run, rfl, result⟩
    have pow : 2 ^ l ≤ xs.length := Nat.le_of_not_lt apex
    rcases mtAddLoop_step allocs fuel digest part path fits pow with
      ⟨lacks, mt', digest', q', l', run, same⟩ |
      ⟨holds, mt₁, levels₁, digest₁, run, same, part₁, path₁⟩
    · exact ⟨_, mt', digest', q', l', run, same, .inr ⟨rfl, l, lacks⟩,
        fun success => by cases success⟩
    have reach₁ : 0 < width (xs ++ [x]).length (l + 1) := by
      rw [width_succ_pos_iff, List.length_append, List.length_singleton]
      omega
    have below : l < 26 := (Nat.pow_lt_pow_iff_right (by decide)).mp
      (Nat.lt_of_le_of_lt pow fits)
    obtain ⟨r, mt', digest', q', l', loop, same', outcome, done⟩ :=
      ih digest₁ part₁ path₁ reach₁ below (by rwa [Nat.add_assoc, Nat.add_comm 1])
    refine ⟨r, mt', digest', q', l', run.trans loop, same'.trans same, ?_, done⟩
    rcases outcome with ⟨rfl, rest⟩ | failed
    · refine .inl ⟨rfl, ?_⟩
      intro k high
      rcases Nat.eq_or_lt_of_le high with rfl | above
      · exact holds
      · exact rest k above
    · exact .inr failed

/-- Above the last repaired level nothing is stored on the new leaf's path. -/
theorem Mt.RefreshedUpTo.append_finish (part : mt.RefreshedUpTo levels xs (xs ++ [x]) l)
    (apex : xs.length < 2 ^ l) (k : Nat) : IsLevel mtHashValue (xs ++ [x]) k (levels k) := by
  by_cases low : k ≤ l
  · exact part.current k low
  · obtain ⟨k, rfl⟩ : ∃ j, k = j + 1 := ⟨k - 1, by omega⟩
    refine (part.pending (k + 1) (by omega)).append_of_even mtHashValue ?_
    have le : 2 ^ l ≤ 2 ^ k := Nat.pow_le_pow_right (by decide) (by omega)
    rw [Nat.div_eq_of_lt (by omega)]

end

theorem isLevel_zero (xs : List Digest) : IsLevel mtHashValue xs 0 xs :=
  ⟨rfl, fun _ _ => rfl⟩

theorem level_zero_eq {ys : List Digest} (leaves : IsLevel mtHashValue xs 0 ys) : ys = xs := by
  refine List.ext_getElem? fun i => ?_
  by_cases inRange : i < ys.length
  · exact leaves.entry i inRange
  · have length : ys.length = xs.length := leaves.length
    rw [List.getElem?_eq_none (Nat.le_of_not_lt inRange),
      List.getElem?_eq_none (length ▸ Nat.le_of_not_lt inRange)]

/-- The list at level 0 after a failed allocation. -/
def refused (xs : List Digest) (al : MtAl) : MtAl :=
  if xs = [] then { al with store := .null } else al

theorem refused_holds {al : MtAl} (list : al.Holds xs) : (refused xs al).Holds xs := by
  by_cases empty : xs = []
  · subst xs
    exact ⟨list.elems, list.fits, fun h => absurd rfl h⟩
  · rwa [refused, if_neg empty]

variable {tag : List UInt8} {len : Nat}

/-- What `mt_add` does is decided by the allocations it needs: the one at level 0,
and the one at the level above the lowest bit of the number of leaves. -/
theorem mtAdd_outcome {mt : Mt} (rep : mt.Represents xs) (fits : xs.length < 2 ^ 26)
    (short : len ≤ hashLength) (readable : len ≤ tag.length) (allocs : Nat → Alloc) {al : MtAl}
    (here : mt.levelAt 0 = .ok al) :
    ((needsBlock xs.length = true ∧ allocs 0 = none) ∧ mtAdd mt (some tag) len allocs =
        .ok (.outOfMemory, mt.setLevel 0 (refused xs al))) ∨
      ¬ (needsBlock xs.length = true ∧ allocs 0 = none) ∧
        ((∀ l, ¬ LacksBlock allocs xs.length l) ∧
            (∃ mt', mtAdd mt (some tag) len allocs = .ok (.success, mt') ∧
              mt'.Represents (xs ++ [padTag tag len])) ∨
          (∃ l, LacksBlock allocs xs.length l) ∧
            ∃ mt', mtAdd mt (some tag) len allocs = .ok (.outOfMemory, mt') ∧
              mt'.elems = xs.length + 1) := by
  obtain ⟨levels, holds, stored⟩ := rep.levels
  obtain ⟨al₀, here₀, list⟩ := holds.levelAt (l := 0) (by decide)
  obtain rfl : al₀ = al := Except.ok.inj (here₀.symm.trans here)
  rw [level_zero_eq (stored 0)] at list
  have init := mtInitHash_of_le short readable
  have notLong : ¬ hashLength < len := Nat.not_lt_of_le short
  rcases mtAlAdd_outcome (padTag tag len) (allocs 0) list fits with
    ⟨needed, failed, run⟩ | ⟨lucky, al', run, list'⟩
  · refine .inl ⟨⟨needed, failed⟩, ?_⟩
    simp [mtAdd, notLong, init, here, run, refused]
  refine .inr ⟨lucky, ?_⟩
  have part := Mt.RefreshedUpTo.start holds stored list'
    (isLevel_zero (xs ++ [padTag tag len]))
  have count : u32 ((mt.setLevel 0 al').elems + 1) = xs.length + 1 := by
    rw [Mt.setLevel, rep.elems]
    exact u32_of_lt (by omega)
  by_cases first : xs.length = 0
  · refine .inl ⟨?_, { mt.setLevel 0 al' with elems := 1 }, ?_, ?_⟩
    · intro l
      apply not_lacksBlock_of_even
      rw [first, Nat.zero_div]
    · simp [mtAdd, notLong, init, here, run, count, first]
    · refine ⟨by simp [first], _, part.holds, part.append_finish ?_⟩
      simp [first]
  · have index : u32Pred (xs.length + 1) = xs.length := u32Pred_succ (by omega)
    have part₁ : Mt.RefreshedUpTo { mt.setLevel 0 al' with elems := xs.length + 1 }
        (Function.update levels 0 (xs ++ [padTag tag len])) xs (xs ++ [padTag tag len]) 0 :=
      ⟨part.holds, part.current, part.pending⟩
    obtain ⟨r, mt', digest', q', l', loop, same, result⟩ :=
      mtAddLoop_spec allocs treeLevels (padTag tag len) part₁ (by simp) (by simp) fits
        (Nat.zero_le _)
        (Nat.lt_of_lt_of_le fits (Nat.pow_le_pow_right (by decide) (by decide)))
    rw [Nat.pow_zero, Nat.div_one] at loop
    rcases result.outcome with ⟨rfl, none⟩ | ⟨rfl, lacks⟩
    · obtain ⟨rfl, low, apex, path, reach, levels', part'⟩ := result.done rfl
      obtain ⟨al'', there, list''⟩ := part'.holds.levelAt
        (show l' < treeLevels by simp only [treeLevels]; omega)
      have top : (levels' l')[0]? = some digest' := by
        rw [(part'.current l' (Nat.le_refl _)).get reach, path]
      refine .inl ⟨fun l => none l (Nat.zero_le l), mt', ?_, ?_⟩
      · simp [mtAdd, notLong, init, here, run, count, first, index, loop, there, list''.get,
          top, digestEq, Exec.assert]
      · exact ⟨by simp [same], levels', part'.holds, part'.append_finish apex⟩
    · refine .inr ⟨lacks, mt', ?_, same⟩
      simp [mtAdd, notLong, init, here, run, count, first, index, loop]

/-- `mt_add` appends the padded tag. The only error it can return is a failed
allocation: at level 0 it leaves the tree as it was, above it does not. -/
theorem mtAdd_spec {mt : Mt} (rep : mt.Represents xs) (fits : xs.length < 2 ^ 26)
    (short : len ≤ hashLength) (readable : len ≤ tag.length) (allocs : Nat → Alloc) :
    ∃ r mt', mtAdd mt (some tag) len allocs = .ok (r, mt') ∧
      (r = .success ∧ mt'.Represents (xs ++ [padTag tag len]) ∨
        r = .outOfMemory ∧ allocs 0 = none ∧ mt'.Represents xs ∨
        r = .outOfMemory ∧ ∃ l, allocs (l + 1) = none) := by
  obtain ⟨levels, holds, stored⟩ := rep.levels
  obtain ⟨al, here, list⟩ := holds.levelAt (l := 0) (by decide)
  rcases mtAdd_outcome rep fits short readable allocs here with
    ⟨⟨_, failed⟩, run⟩ | ⟨_, ⟨_, mt', run, rep'⟩ | ⟨⟨l, _, _, failed⟩, mt', run, _⟩⟩
  · refine ⟨_, _, run, .inr (.inl ⟨rfl, failed, rep.elems, levels, ?_, stored⟩)⟩
    have same := level_zero_eq (stored 0)
    have kept := holds.setLevel (l := 0) (refused_holds list)
    rwa [Function.update_eq_self, same] at kept
  · exact ⟨_, mt', run, .inl ⟨rfl, rep'⟩⟩
  · exact ⟨_, mt', run, .inr (.inr ⟨rfl, l, failed⟩)⟩

/-- With room and memory, `mt_add` appends the leaf. -/
theorem mtAdd_success {mt : Mt} (rep : mt.Represents xs)
    (fits : xs.length < 2 ^ 26) (short : len ≤ hashLength)
    (readable : len ≤ tag.length) {allocs : Nat → Alloc} (memory : ∀ l, allocs l ≠ none) :
    ∃ mt', mtAdd mt (some tag) len allocs = .ok (.success, mt') ∧
      mt'.Represents (xs ++ [padTag tag len]) := by
  obtain ⟨r, mt', added, outcome⟩ := mtAdd_spec rep fits short readable allocs
  rcases outcome with ⟨rfl, tree⟩ | ⟨_, failed, _⟩ | ⟨_, l, failed⟩
  · exact ⟨mt', added, tree⟩
  · exact absurd failed (memory 0)
  · exact absurd failed (memory (l + 1))

/-! ## Overwriting a leaf -/

section

variable {mt : Mt} {levels : Nat → List Digest} {xs : List Digest} {x : Digest} {k l : Nat}

/-- Overwriting a leaf never changes how much is stored. -/
theorem Mt.RefreshedUpTo.shaped_set (part : mt.RefreshedUpTo levels xs (xs.set k x) l) :
    mt.Shaped levels xs.length := by
  refine ⟨part.holds, fun j => ?_⟩
  by_cases low : j ≤ l
  · simpa using (part.current j low).length
  · exact (part.pending j (Nat.lt_of_not_le low)).length

/-- Nothing is stored above the root's level, so nothing is left to repair. -/
theorem Mt.RefreshedUpTo.set_finish
    (part : mt.RefreshedUpTo levels xs (xs.set k x) (depth xs.length)) (j : Nat) :
    IsLevel mtHashValue (xs.set k x) j (levels j) := by
  by_cases low : j ≤ depth xs.length
  · exact part.current j low
  · have high := Nat.lt_of_not_le low
    refine (part.pending j high).congr (by simp) fun i lt => ?_
    obtain ⟨j, rfl⟩ : ∃ m, j = m + 1 := ⟨j - 1, by omega⟩
    have pos : 2 ^ j < xs.length := width_succ_pos_iff.mp (Nat.zero_lt_of_lt lt)
    exact absurd (lt_depth_iff.mpr pos) (by omega)

theorem mtUpdateLoop_spec (fuel : Nat) {count : Nat} (digest : Digest)
    (part : mt.RefreshedUpTo levels xs (xs.set k x) l)
    (path : node mtHashValue (xs.set k x) l (k / 2 ^ l) = some digest)
    (inRange : k < xs.length) (top : l + count = depth xs.length) (enough : count ≤ fuel) :
    ∃ mt' levels' digest',
      mtUpdateLoop fuel mt digest (k / 2 ^ l) l =
        .ok (.success, mt', digest', k / 2 ^ depth xs.length, depth xs.length) ∧
      mt'.elems = mt.elems ∧
      node mtHashValue (xs.set k x) (depth xs.length) (k / 2 ^ depth xs.length) = some digest' ∧
      mt'.RefreshedUpTo levels' xs (xs.set k x) (depth xs.length) := by
  induction fuel generalizing mt levels digest l count with
  | zero =>
    obtain rfl : count = 0 := Nat.le_zero.mp enough
    obtain rfl : l = depth xs.length := top
    exact ⟨mt, levels, digest, rfl, rfl, path, part⟩
  | succ fuel ih =>
    have next := part.shaped_set.hasNext (l := l) (by omega)
    cases count with
    | zero =>
      obtain rfl : l = depth xs.length := top
      exact ⟨mt, levels, digest, by simp [mtUpdateLoop, next], rfl, path, part⟩
    | succ count =>
      have below : l < depth xs.length := by omega
      have bound := depth_le part.shaped_set.fits
      have reached : k / 2 ^ l * 2 ^ l < xs.length :=
        Nat.lt_of_le_of_lt (Nat.div_mul_le_self _ _) inRange
      have args := part.shaped_set.pathHashArgs digest below reached
      have half : k / 2 ^ l / 2 = k / 2 ^ (l + 1) := by
        rw [Nat.div_div_eq_div_mul, ← Nat.pow_succ]
      have parent := node_parent_eq mtHashValue part.current path
      rw [half] at parent
      obtain ⟨al, above, list⟩ := part.holds.levelAt
        (show l + 1 < treeLevels by simp only [treeLevels]; omega)
      obtain ⟨al', run, list'⟩ := list.updateIfExists
        ((sibling levels l (k / 2 ^ l)).parent mtHashValue digest) (k / 2 ^ (l + 1))
      have repaired := (part.pending (l + 1) (Nat.lt_succ_self l)).set mtHashValue parent
      obtain ⟨mt', levels', digest', loop, rest⟩ :=
        ih _ (part.setLevel list' repaired) parent (show l + 1 + count = _ by omega)
          (Nat.le_of_succ_le_succ enough)
      refine ⟨mt', levels', digest', ?_, rest⟩
      simpa [mtUpdateLoop, next, below, args, pathHash_asArgs, above, Nat.shiftRight_one,
        half, run] using loop

end

/-- `mt_update` replaces one leaf and always succeeds. -/
theorem mtUpdate_spec {mt : Mt} (rep : mt.Represents xs) {offset : Nat} (short : len ≤ hashLength)
    (readable : len ≤ tag.length) (inRange : offset < xs.length) :
    ∃ mt', mtUpdate mt (some tag) len offset = .ok (.success, mt') ∧
      mt'.Represents (xs.set offset (padTag tag len)) := by
  obtain ⟨levels, holds, stored⟩ := rep.levels
  obtain ⟨al, here, list⟩ := holds.levelAt (l := 0) (by decide)
  rw [level_zero_eq (stored 0)] at list
  obtain ⟨al', run, list'⟩ := list.update (padTag tag len) inRange
  have part := Mt.RefreshedUpTo.start holds stored list' (isLevel_zero _)
  have bound := depth_le rep.fits
  obtain ⟨mt', levels', digest', loop, same, path, part'⟩ :=
    mtUpdateLoop_spec treeLevels (padTag tag len) part (by simp [inRange]) inRange
      (Nat.zero_add _) (by simp only [treeLevels]; omega)
  have apex : offset / 2 ^ depth xs.length = 0 :=
    Nat.div_eq_of_lt (Nat.lt_of_lt_of_le inRange (le_pow_depth _))
  rw [apex] at loop path
  rw [Nat.pow_zero, Nat.div_one] at loop
  obtain ⟨al'', there, list''⟩ := part'.holds.levelAt
    (show depth xs.length < treeLevels by simp only [treeLevels]; omega)
  have top : (levels' (depth xs.length))[0]? = some digest' := by
    refine Eq.trans ((part'.current _ (Nat.le_refl _)).get ?_) path
    simpa using width_depth_pos (Nat.zero_lt_of_lt inRange)
  refine ⟨mt', ?_, by simp [same, Mt.setLevel, rep.elems], levels', part'.holds,
    part'.set_finish⟩
  simp [mtUpdate, short, rep.elems, inRange, mtInitHash_of_le short readable, here, run, loop,
    there, list''.get, top, digestEq, Exec.assert]

/-! ## Reading a current tree -/

theorem climb_eq_root {levels : Nat → List Digest}
    (stored : ∀ l, IsLevel mtHashValue xs l (levels l)) {i : Nat} {leaf : Digest}
    (here : xs[i]? = some leaf) :
    (levels (depth xs.length))[0]? =
      some (climb mtHashValue leaf (siblings levels (depth xs.length) 0 i)) := by
  have inRange : i < xs.length := (List.getElem?_eq_some_iff.mp here).1
  have apex : i / 2 ^ depth xs.length = 0 :=
    Nat.div_eq_of_lt (Nat.lt_of_lt_of_le inRange (le_pow_depth _))
  have path := node_climb_eq mtHashValue stored (depth xs.length)
    (show node mtHashValue xs 0 i = some leaf from here)
  rw [Nat.zero_add, apex] at path
  rw [root_entry (Nat.zero_lt_of_lt inRange) stored, path]

namespace Mt.Represents

variable {mt : Mt} {xs : List Digest}

/-- The leaves of the tree are the list it represents. -/
theorem leaf (rep : mt.Represents xs) (i : Nat) : mtLeaf mt i = .ok xs[i]? := by
  obtain ⟨levels, holds, stored⟩ := rep.levels
  rw [mtLeaf, holds.get (by decide), level_zero_eq (stored 0)]

theorem getRoot (rep : mt.Represents xs) (nonempty : 0 < xs.length) :
    ∃ root, mth mtHashValue xs = some root ∧ mtGetRoot mt = .ok root := by
  obtain ⟨levels, shaped, stored⟩ := rep.shaped
  have entry := root_entry nonempty stored
  have all : (node mtHashValue xs (depth xs.length) 0).isSome := by
    rw [node_isSome_iff, Nat.zero_mul]
    exact nonempty
  obtain ⟨root, hroot⟩ := Option.isSome_iff_exists.mp all
  refine ⟨root, ?_, shaped.mtGetRoot (entry.trans hroot)⟩
  rw [← node_root mtHashValue (le_pow_depth xs.length), hroot]

theorem verify (rep : mt.Represents xs) {tag : List UInt8} {len offset : Nat}
    (short : len ≤ hashLength) (readable : len ≤ tag.length)
    (leaf : xs[offset]? = some (padTag tag len)) :
    mtVerify mt (some tag) len offset = .ok .success := by
  obtain ⟨levels, shaped, stored⟩ := rep.shaped
  have inRange : offset < xs.length := (List.getElem?_eq_some_iff.mp leaf).1
  rw [shaped.mtVerify rep.elems (climb_eq_root stored leaf) short readable inRange, if_pos rfl]

theorem verify_returns (rep : mt.Represents xs) {tag : List UInt8} {len : Nat}
    (short : len ≤ hashLength) (readable : len ≤ tag.length) (offset : Nat) :
    ∃ r, mtVerify mt (some tag) len offset = .ok r := by
  by_cases inRange : offset < xs.length
  · obtain ⟨levels, shaped, stored⟩ := rep.shaped
    have entry := climb_eq_root stored (List.getElem?_eq_getElem inRange)
    exact ⟨_, shaped.mtVerify rep.elems entry short readable inRange⟩
  · exact ⟨.illegalParam, by simp [mtVerify, rep.elems, inRange]⟩

end Mt.Represents

end Kvsev.Merkle
