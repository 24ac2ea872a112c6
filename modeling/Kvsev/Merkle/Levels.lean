import Kvsev.HashTree.Path
import Kvsev.Merkle.Impl

/-!
# Reading the levels of a tree

The functions that only read a tree are specified against the lists its levels
hold, and against nothing else: not every tree they run on is current for some
list of leaves. What they need is the shape, the number of entries of each
level, which keeps all 32-bit offsets exact and the left neighbor in range.
-/

namespace Kvsev.Merkle

open Memory HashTree

/-- Each of the thirty levels is an array list that holds the given digests. -/
def Mt.HoldsLevels (mt : Mt) (levels : Nat → List Digest) : Prop :=
  ∀ l, l < treeLevels → ∃ al, mt.level[l]? = some al ∧ al.Holds (levels l)

/-- The levels have the sizes of a tree over `n` leaves. -/
structure Mt.Shaped (mt : Mt) (levels : Nat → List Digest) (n : Nat) : Prop where
  holds : mt.HoldsLevels levels
  length : ∀ l, (levels l).length = width n l

theorem mtCreate_holdsLevels : mtCreate.HoldsLevels fun _ => [] := by
  intro l inRange
  refine ⟨mtAlCreate, ?_, mtAlCreate_holds⟩
  simp [mtCreate, inRange]

namespace Mt.HoldsLevels

variable {mt : Mt} {levels : Nat → List Digest}

section

variable (holds : mt.HoldsLevels levels)

include holds

theorem levelAt {l : Nat} (inRange : l < treeLevels) :
    ∃ al, mt.levelAt l = .ok al ∧ al.Holds (levels l) := by
  obtain ⟨al, here, list⟩ := holds l inRange
  exact ⟨al, by simp [Mt.levelAt, here], list⟩

/-- Replacing the list of one level changes that level alone. -/
theorem setLevel {l : Nat} {al : MtAl} {ys : List Digest}
    (list : al.Holds ys) : (mt.setLevel l al).HoldsLevels (Function.update levels l ys) := by
  intro k inRange
  by_cases here : k = l
  · subst k
    refine ⟨al, ?_, by simpa using list⟩
    simp [Mt.setLevel, inRange]
  · obtain ⟨al', there, list'⟩ := holds k inRange
    refine ⟨al', ?_, by simpa [here] using list'⟩
    simpa [Mt.setLevel, Vector.getElem?_setIfInBounds, Ne.symm here] using there

theorem hasNext {l : Nat} (inRange : l + 1 < treeLevels) :
    hasNextLevelExceptRoot mt l =
      .ok (decide (l + 1 < treeLevels - 1 ∧ 0 < (levels (l + 1)).length)) := by
  obtain ⟨al, here, list⟩ := holds.levelAt inRange
  simp [hasNextLevelExceptRoot, here, list.getSize]

theorem get {l : Nat} (inRange : l < treeLevels) (i : Nat) :
    (do mtAlGet (← mt.levelAt l) i) = .ok (levels l)[i]? := by
  obtain ⟨al, here, list⟩ := holds.levelAt inRange
  rw [here, Exec.ok_bind, list.get]

/-- The descent along left children, as long as its 32-bit offset is exact. -/
theorem findRightNeighbor {l offset : Nat}
    (inRange : l < treeLevels) (exact : offset * 2 ^ l < 2 ^ 32) :
    findRightNeighbor mt offset l = .ok (neighbor levels l offset) := by
  induction l generalizing offset with
  | zero =>
    obtain ⟨al, here, list⟩ := holds.levelAt inRange
    by_cases stored : offset < (levels 0).length
    · simp [Merkle.findRightNeighbor, here, list.getSize, list.get, stored, neighbor]
    · simp [Merkle.findRightNeighbor, here, list.getSize, stored, neighbor]
  | succ l ih =>
    obtain ⟨al, here, list⟩ := holds.levelAt inRange
    by_cases stored : offset < (levels (l + 1)).length
    · simp [Merkle.findRightNeighbor, here, list.getSize, list.get, stored, neighbor]
    have double : 2 * offset * 2 ^ l < 2 ^ 32 := by
      rwa [Nat.mul_comm 2 offset, Nat.mul_assoc, ← Nat.pow_succ']
    have below : 2 * offset < 2 ^ 32 :=
      Nat.lt_of_le_of_lt (Nat.le_mul_of_pos_right _ (Nat.two_pow_pos l)) double
    have shifted : u32 (offset <<< 1) = 2 * offset := by
      rw [Nat.shiftLeft_eq, Nat.pow_one, Nat.mul_comm, u32_of_lt below]
    have rest := ih (Nat.lt_of_succ_lt inRange) double
    simp [Merkle.findRightNeighbor, here, list.getSize, stored, neighbor, shifted, rest]

end

end Mt.HoldsLevels

/-! ## One level of a climb -/

theorem mtInitHash_of_le {tag : List UInt8} {len : Nat} (short : len ≤ hashLength)
    (readable : len ≤ tag.length) : mtInitHash tag len = .ok (padTag tag len) := by
  rw [mtInitHash, Exec.assert_of short, Exec.ok_bind, if_pos readable, Exec.pure_eq_ok]

/-- A pair of digests as arguments of `mt_hash`. -/
def asArgs (p : Digest × Digest) : Option Digest × Option Digest := (some p.1, some p.2)

theorem mtInitHash_of_lt {tag : List UInt8} {len : Nat} (short : len ≤ hashLength)
    (cut : tag.length < len) : mtInitHash tag len = .error .invalidAccess := by
  rw [mtInitHash, Exec.assert_of short, Exec.ok_bind, if_neg (Nat.not_le_of_lt cut)]
  rfl

theorem mtLeft_eq (q : Nat) : mtLeft q = decide (q % 2 = 0) := by
  rcases Nat.mod_two_eq_zero_or_one q with parity | parity <;>
    simp [mtLeft, Nat.and_one_is_mod, parity]

theorem mtRight_eq (q : Nat) : mtRight q = decide (q % 2 = 1) := by
  rcases Nat.mod_two_eq_zero_or_one q with parity | parity <;>
    simp [mtRight, Nat.and_one_is_mod, parity]

theorem pathHash_asArgs (digest : Digest) (s : Sibling Digest) :
    pathHash digest ((s.pair digest).map asArgs) = .ok (s.parent mtHashValue digest) := by
  cases s <;> simp [pathHash, asArgs, Sibling.pair, Sibling.parent, mtHash_some]

theorem Mt.HoldsLevels.pathHashArgs {mt : Mt} {levels : Nat → List Digest}
    (holds : mt.HoldsLevels levels) {q l : Nat} (digest : Digest) (inRange : l < treeLevels)
    (exact : (q + 1) * 2 ^ l < 2 ^ 32) (left : q % 2 = 1 → q - 1 < (levels l).length) :
    pathHashArgs mt digest q l = .ok (((sibling levels l q).pair digest).map asArgs) := by
  by_cases even : q % 2 = 0
  · have below : q + 1 < 2 ^ 32 :=
      Nat.lt_of_le_of_lt (Nat.le_mul_of_pos_right _ (Nat.two_pow_pos l)) exact
    have found := holds.findRightNeighbor inRange exact
    cases right : neighbor levels l (q + 1) <;>
      simp [Merkle.pathHashArgs, mtLeft_eq, even, u32_of_lt below, found, right, sibling,
        Sibling.pair, asArgs]
  · obtain ⟨al, here, list⟩ := holds.levelAt inRange
    have stored := left (by omega)
    simp [Merkle.pathHashArgs, mtLeft_eq, even, here, list.get, sibling,
      List.getElem?_eq_getElem stored, Sibling.pair, asArgs]

/-! ## The loops -/

/-- The level of the root over `n` leaves. -/
def depth (n : Nat) : Nat := Nat.clog 2 n

theorem lt_depth_iff {l n : Nat} : l < depth n ↔ 2 ^ l < n :=
  Nat.lt_clog_iff_pow_lt (by decide)

theorem le_pow_depth (n : Nat) : n ≤ 2 ^ depth n := Nat.le_pow_clog (by decide) n

theorem depth_le {n : Nat} (fits : n ≤ 2 ^ 26) : depth n ≤ 26 :=
  Nat.clog_le_of_le_pow fits

/-- The root is stored, unless the tree is empty. -/
theorem width_depth_pos {n : Nat} (pos : 0 < n) : 0 < width n (depth n) := by
  cases top : depth n with
  | zero => simpa using pos
  | succ l =>
    rw [width_succ_pos_iff, ← lt_depth_iff, top]
    exact Nat.lt_succ_self l

namespace Mt.Shaped

variable {mt : Mt} {levels : Nat → List Digest} {n : Nat}

section

variable (shaped : mt.Shaped levels n)

include shaped

theorem fits : n ≤ 2 ^ 26 := by
  obtain ⟨al, _, list⟩ := shaped.holds 0 (by decide)
  have length := shaped.length 0
  rw [width_zero] at length
  exact length ▸ list.fits

/-- The loops continue exactly below the level of the root. -/
theorem hasNext {l : Nat} (le : l ≤ depth n) :
    hasNextLevelExceptRoot mt l = .ok (decide (l < depth n)) := by
  have top := depth_le shaped.fits
  have inRange : l + 1 < treeLevels := by simp only [treeLevels]; omega
  rw [shaped.holds.hasNext inRange, shaped.length]
  have room : l + 1 < 29 := by omega
  simp [room, width_succ_pos_iff, lt_depth_iff]

/-- Below the root every step finds its arguments and its 32-bit offsets are exact. -/
theorem pathHashArgs {q l : Nat} (digest : Digest) (below : l < depth n) (reached : q * 2 ^ l < n) :
    Merkle.pathHashArgs mt digest q l =
      .ok (((sibling levels l q).pair digest).map asArgs) := by
  have fits := shaped.fits
  have pow := lt_depth_iff.mp below
  have top := depth_le fits
  refine shaped.holds.pathHashArgs digest (by simp only [treeLevels]; omega) ?_ fun odd => ?_
  · rw [Nat.add_mul, Nat.one_mul]
    omega
  · rw [shaped.length]
    refine lt_width_of_complete ?_
    rw [Nat.sub_add_cancel (by omega)]
    exact Nat.le_of_lt reached

theorem rootLevel {l count fuel : Nat} (top : l + count = depth n) (enough : count ≤ fuel) :
    Merkle.rootLevel mt fuel l = .ok (depth n) := by
  induction fuel generalizing l count with
  | zero =>
    obtain rfl : count = 0 := Nat.le_zero.mp enough
    simp [Merkle.rootLevel, ← top]
  | succ fuel ih =>
    rw [Merkle.rootLevel, shaped.hasNext (by omega), Exec.ok_bind]
    cases count with
    | zero => simp [← top]
    | succ count =>
      have below : l < depth n := by omega
      simpa [below] using ih (by omega) (Nat.le_of_succ_le_succ enough)

theorem mtGetRoot {root : Digest}
    (entry : (levels (depth n))[0]? = some root) : Merkle.mtGetRoot mt = .ok root := by
  have top := depth_le shaped.fits
  have inRange : depth n < treeLevels := by simp only [treeLevels]; omega
  obtain ⟨al, here, list⟩ := shaped.holds.levelAt inRange
  have level := shaped.rootLevel (l := 0) (Nat.zero_add _) (Nat.le_of_lt inRange)
  simp [Merkle.mtGetRoot, level, here, list.get, entry]

end

theorem half_reached {q l : Nat} (reached : q * 2 ^ l < n) : q / 2 * 2 ^ (l + 1) < n := by
  refine Nat.lt_of_le_of_lt ?_ reached
  rw [Nat.pow_succ', ← Nat.mul_assoc]
  exact Nat.mul_le_mul_right _ (Nat.div_mul_le_self q 2)

theorem mtVerifyLoop (shaped : mt.Shaped levels n) {q l count fuel : Nat} (digest : Digest)
    (top : l + count = depth n) (enough : count ≤ fuel) (reached : q * 2 ^ l < n) :
    Merkle.mtVerifyLoop mt fuel digest q l =
      .ok (.success, climb mtHashValue digest (siblings levels count l q), q / 2 ^ count,
        depth n, (hashedPairs mtHashValue digest (siblings levels count l q)).map asArgs) := by
  induction fuel generalizing q l count digest with
  | zero =>
    obtain rfl : count = 0 := Nat.le_zero.mp enough
    simp [Merkle.mtVerifyLoop, siblings, climb, hashedPairs, ← top]
  | succ fuel ih =>
    rw [Merkle.mtVerifyLoop, shaped.hasNext (by omega), Exec.ok_bind]
    cases count with
    | zero => simp [siblings, climb, hashedPairs, ← top]
    | succ count =>
      have below : l < depth n := by omega
      have rest := ih ((sibling levels l q).parent mtHashValue digest)
        (show l + 1 + count = depth n by omega) (Nat.le_of_succ_le_succ enough)
        (half_reached reached)
      have halves : q / 2 / 2 ^ count = q / 2 ^ (count + 1) := by
        rw [Nat.div_div_eq_div_mul, ← Nat.pow_succ']
      have calls : (((sibling levels l q).pair digest).map asArgs).toList =
          ((sibling levels l q).pair digest).toList.map asArgs := by
        cases (sibling levels l q).pair digest <;> rfl
      simp [below, shaped.pathHashArgs digest below reached, pathHash_asArgs,
        Nat.shiftRight_one, rest, halves, calls, siblings, climb, hashedPairs]

theorem mtVerify (shaped : mt.Shaped levels n) (elems : mt.elems = n) {root : Digest}
    (entry : (levels (depth n))[0]? = some root) {tag : List UInt8} {len offset : Nat}
    (short : len ≤ hashLength) (readable : len ≤ tag.length) (inRange : offset < n) :
    Merkle.mtVerify mt (some tag) len offset =
      .ok (if climb mtHashValue (padTag tag len) (siblings levels (depth n) 0 offset) = root
        then .success else .rootMismatch) := by
  have top := depth_le shaped.fits
  have stored : depth n < treeLevels := by simp only [treeLevels]; omega
  obtain ⟨al, here, list⟩ := shaped.holds.levelAt stored
  have loop := shaped.mtVerifyLoop (padTag tag len) (Nat.zero_add (depth n))
    (Nat.le_of_lt stored) (show offset * 2 ^ 0 < n by simpa using inRange)
  have apex : offset / 2 ^ depth n = 0 :=
    Nat.div_eq_of_lt (Nat.lt_of_lt_of_le inRange (le_pow_depth n))
  rw [apex] at loop
  simp only [Merkle.mtVerify, elems, mtInitHash_of_le short readable, short, inRange, and_self,
    if_true, Exec.ok_bind, Exec.pure_eq_ok, loop, ne_eq, not_true_eq_false, if_false, here,
    list.get, entry, digestEq, Exec.access_some, decide_eq_true_eq]
  split <;> rfl

end Mt.Shaped

end Kvsev.Merkle
