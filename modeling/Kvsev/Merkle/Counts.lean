import Kvsev.Merkle.Runs

/-!
# Where the root is

Which level holds the root depends on the element counts alone. This module runs
the functions of `mt_impl.c` and `mt_array_list.c` on the counts: a digest is
dropped, a pointer is only `NULL` or not, allocations succeed and counts are not
reduced to 32 bits. That reaches sizes the byte arithmetic of `mt_al_add` never
lets a real tree have, up to `MT_AL_MAX_ELEMS`.

The add loop may write level 29, while the readers' loop never goes above level
28. The two meet at the same level for one leaf up to `2^28` leaves.
-/

namespace Kvsev.Merkle

open Memory HashTree

/-- The element counts of a tree. -/
structure Counts where
  elems : Nat
  level : Nat → Nat

namespace Counts

/-- `mt_create` -/
def create : Counts := { elems := 0, level := fun _ => 0 }

/-- `mt->level[l]->elems` -/
def sizeAt (c : Counts) (l : Nat) : Exec Nat :=
  if l < treeLevels then return c.level l else throw .invalidAccess

def setSize (c : Counts) (l size : Nat) : Counts :=
  { c with level := Function.update c.level l size }

/-- `mt_al_get`: whether the pointer it returns is not `NULL`. -/
def alGet (size offset : Nat) : Exec Bool := do
  Exec.assert (size < mtAlMaxElems)
  return offset < size

/-- `mt_al_add` -/
def alAdd (size : Nat) : Exec (MtError × Nat) := do
  Exec.assert (size < mtAlMaxElems)
  if isPowerOfTwo size ∧ mtAlMaxElems < size <<< 1 then return (.illegalState, size)
  else return (.success, size + 1)

/-- `mt_al_update` -/
def alUpdate (size offset : Nat) : Exec MtError := do
  Exec.assert (size < mtAlMaxElems)
  if offset < size then return .success else return .illegalParam

/-- `mt_al_update_if_exists` -/
def alUpdateIfExists (size : Nat) : Exec MtError := do
  Exec.assert (size < mtAlMaxElems)
  return .success

/-- `mt_al_add_or_update` -/
def alAddOrUpdate (size offset : Nat) : Exec (MtError × Nat) := do
  Exec.assert (size < mtAlMaxElems)
  if size < offset then return (.illegalParam, size)
  else if offset = size then alAdd size
  else
    let r ← alUpdate size offset
    return (r, size)

/-- The loop of `mt_add`. Where the left neighbor is `NULL`, `mt_hash` refuses it. -/
def addLoop : Nat → Counts → Nat → Nat → Exec (MtError × Counts × Nat × Nat)
  | 0, c, q, l => return (.success, c, q, l)
  | fuel + 1, c, q, l => do
    if 0 < q ∧ l < treeLevels then
      if mtRight q then
        if ← alGet (← c.sizeAt l) (q - 1) then
          let (r, size) ← alAddOrUpdate (← c.sizeAt (l + 1)) (q >>> 1)
          let c := c.setSize (l + 1) size
          if r ≠ .success then return (r, c, q, l)
          else addLoop fuel c (q >>> 1) (l + 1)
        else return (.illegalParam, c, q, l)
      else addLoop fuel c (q >>> 1) (l + 1)
    else return (.success, c, q, l)

/-- `mt_add`, with the level at which it leaves the digest over all leaves. -/
def add (c : Counts) : Exec (MtError × Counts × Nat) := do
  let (r, size) ← alAdd (← c.sizeAt 0)
  let c := c.setSize 0 size
  if r ≠ .success then return (r, c, 0)
  else
    let c := { c with elems := c.elems + 1 }
    if c.elems = 1 then return (.success, c, 0)
    else
      let (r, c, q, l) ← addLoop treeLevels c (c.elems - 1) 0
      if r ≠ .success then return (r, c, l)
      else if ← alGet (← c.sizeAt l) q then return (.success, c, l)
      else throw .invalidAccess

/-- The counts after `n` calls of `mt_add`, up to the first that fails. -/
def adds : Nat → Exec (MtError × Counts × Nat)
  | 0 => return (.success, create, 0)
  | n + 1 => do
    let (r, c, l) ← adds n
    if r ≠ .success then return (r, c, l) else c.add

/-- `hasNextLevelExceptRoot` -/
def hasNext (c : Counts) (l : Nat) : Exec Bool := do
  let next ← c.sizeAt (l + 1)
  return l + 1 < treeLevels - 1 ∧ 0 < next

/-- `findRightNeighbor`: whether it finds one. -/
def findRight (c : Counts) (offset : Nat) : Nat → Exec Bool
  | 0 => do
    let size ← c.sizeAt 0
    if offset < size then alGet size offset else return false
  | l + 1 => do
    let size ← c.sizeAt (l + 1)
    if offset < size then alGet size offset else findRight c (offset <<< 1) l

/-- One level of the loops of `mt_verify` and `mt_update`: whether `mt_hash`, if
it is called, gets two digests. -/
def pathArgs (c : Counts) (q l : Nat) : Exec Bool := do
  if mtLeft q then
    let _ ← c.findRight (q + 1) l
    return true
  else alGet (← c.sizeAt l) (q - 1)

/-- The loop of `mt_verify`. -/
def verifyLoop (c : Counts) : Nat → Nat → Nat → Exec (MtError × Nat × Nat)
  | 0, q, l => return (.success, q, l)
  | fuel + 1, q, l => do
    if ← c.hasNext l then
      if ← c.pathArgs q l then verifyLoop c fuel (q >>> 1) (l + 1)
      else return (.illegalParam, q, l)
    else return (.success, q, l)

/-- `mt_verify` up to its comparison, with the level of the entry it reads. -/
def verify (c : Counts) (offset : Nat) : Exec (MtError × Nat) := do
  if offset < c.elems then
    let (r, q, l) ← c.verifyLoop treeLevels offset 0
    if r ≠ .success then return (r, l)
    else if ← alGet (← c.sizeAt l) q then return (.success, l)
    else throw .invalidAccess
  else return (.illegalParam, 0)

/-- The loop of `mt_update`. -/
def updateLoop (c : Counts) : Nat → Nat → Nat → Exec (MtError × Nat × Nat)
  | 0, q, l => return (.success, q, l)
  | fuel + 1, q, l => do
    if ← c.hasNext l then
      if ← c.pathArgs q l then
        let r ← alUpdateIfExists (← c.sizeAt (l + 1))
        if r ≠ .success then return (r, q >>> 1, l + 1)
        else updateLoop c fuel (q >>> 1) (l + 1)
      else return (.illegalParam, q, l)
    else return (.success, q, l)

/-- `mt_update`, with the level of the entry it checks last. -/
def update (c : Counts) (offset : Nat) : Exec (MtError × Nat) := do
  if offset < c.elems then
    let r ← alUpdate (← c.sizeAt 0) offset
    if r ≠ .success then return (r, 0)
    else
      let (r, q, l) ← c.updateLoop treeLevels offset 0
      if r ≠ .success then return (r, l)
      else if ← alGet (← c.sizeAt l) q then return (.success, l)
      else throw .invalidAccess
  else return (.illegalParam, 0)

/-- The loop of `mt_get_root`. -/
def rootLevel (c : Counts) : Nat → Nat → Exec Nat
  | 0, l => return l
  | fuel + 1, l => do
    if ← c.hasNext l then rootLevel c fuel (l + 1) else return l

/-- `mt_get_root`, with the level it reads. -/
def getRoot (c : Counts) : Exec Nat := do
  let l ← c.rootLevel treeLevels 0
  if ← alGet (← c.sizeAt l) 0 then return l else throw .invalidAccess

/-- The readers return, and they all read an entry of level `l`. -/
structure Agrees (c : Counts) (l : Nat) : Prop where
  getRoot : c.getRoot = .ok l
  verify : ∀ offset, offset < c.elems → c.verify offset = .ok (.success, l)
  update : ∀ offset, offset < c.elems → c.update offset = .ok (.success, l)

/-! ## Small lemmas -/

variable {l : Nat}

theorem sizeAt_of_lt {c : Counts} (inRange : l < treeLevels) :
    c.sizeAt l = .ok (c.level l) := if_pos inRange

theorem alGet_of_lt {size : Nat} (below : size < mtAlMaxElems) (offset : Nat) :
    alGet size offset = .ok (decide (offset < size)) := by
  rw [alGet, Exec.assert_of below, Exec.ok_bind, Exec.pure_eq_ok]

/-- Below the maximum the array can always be doubled. -/
theorem alAdd_of_lt {size : Nat} (below : size < mtAlMaxElems) :
    alAdd size = .ok (.success, size + 1) := by
  have room : ¬ (isPowerOfTwo size = true ∧ mtAlMaxElems < size <<< 1) := by
    rintro ⟨power, over_⟩
    obtain ⟨k, rfl⟩ := isPowerOfTwo_iff.mp power
    have small : k < 29 := (Nat.pow_lt_pow_iff_right (show 1 < 2 by decide)).mp below
    have half : 2 ^ k ≤ 2 ^ 28 := Nat.pow_le_pow_right (by decide) (by omega)
    rw [Nat.shiftLeft_eq] at over_
    simp only [mtAlMaxElems] at over_
    omega
  rw [alAdd, Exec.assert_of below, Exec.ok_bind, if_neg room, Exec.pure_eq_ok]

theorem alAddOrUpdate_of_le {size offset : Nat} (below : size < mtAlMaxElems)
    (inRange : offset ≤ size) :
    alAddOrUpdate size offset = .ok (.success, max size (offset + 1)) := by
  have notPast : ¬ size < offset := Nat.not_lt_of_le inRange
  by_cases atEnd : offset = size
  · subst offset
    simp [alAddOrUpdate, Exec.assert_of below, alAdd_of_lt below]
  · have before : offset < size := Nat.lt_of_le_of_ne inRange atEnd
    have same : max size (offset + 1) = size := Nat.max_eq_left before
    rw [same]
    simp [alAddOrUpdate, Exec.assert_of below, notPast, atEnd, alUpdate, before]

/-! ## The counts `mt_add` produces -/

/-- The counts of a tree over `n` leaves. -/
def widths (n : Nat) : Counts := { elems := n, level := width n }

/-- The counts while leaf number `n + 1` is added: the levels up to `l` are done. -/
def midway (n l : Nat) : Counts :=
  { elems := n + 1, level := fun k => if k ≤ l then width (n + 1) k else width n k }

theorem width_le (n l : Nat) : width n l ≤ n := by
  cases l with
  | zero => exact Nat.le_refl n
  | succ l =>
    apply width_succ_le_iff.mpr
    have pos := Nat.two_pow_pos l
    have product : (2 * n + 1) * 2 ^ l = n * 2 ^ l + n * 2 ^ l + 2 ^ l := by ring
    have le : n ≤ n * 2 ^ l := Nat.le_mul_of_pos_right n pos
    omega

variable {n : Nat}

theorem midway_level_below (below : n + 1 < mtAlMaxElems) (k : Nat) :
    (midway n l).level k < mtAlMaxElems := by
  have new := width_le (n + 1) k
  have old := width_le n k
  simp only [midway]
  split <;> omega

/-- A level above an even position keeps its count. -/
theorem midway_of_even (even : n / 2 ^ l % 2 = 0) : midway n l = midway n (l + 1) := by
  obtain ⟨old, new⟩ := width_append_of_even even
  simp only [midway, Counts.mk.injEq, true_and]
  funext k
  by_cases low : k ≤ l
  · simp [low, Nat.le_succ_of_le low]
  · by_cases here : k = l + 1
    · subst k
      simp [old, new]
    · have high : ¬ k ≤ l + 1 := by omega
      simp [low, high]

/-- Above an odd position the count becomes that of the new tree. -/
theorem midway_setSize (n l : Nat) :
    (midway n l).setSize (l + 1) (width (n + 1) (l + 1)) = midway n (l + 1) := by
  simp only [midway, setSize, Counts.mk.injEq, true_and]
  funext k
  by_cases here : k = l + 1
  · subst k
    simp
  · have iff : k ≤ l ↔ k ≤ l + 1 := by omega
    rw [Function.update_of_ne here]
    simp only [iff]

/-- Once the path ends, all levels are done. -/
theorem midway_of_lt (apex : n < 2 ^ l) : midway n l = widths (n + 1) := by
  simp only [midway, widths, Counts.mk.injEq, true_and]
  funext k
  by_cases low : k ≤ l
  · simp [low]
  · obtain ⟨j, rfl⟩ : ∃ j, k = j + 1 := ⟨k - 1, by omega⟩
    have power : 2 ^ l ≤ 2 ^ j := Nat.pow_le_pow_right (by decide) (by omega)
    have zero : n / 2 ^ j = 0 := Nat.div_eq_of_lt (Nat.lt_of_lt_of_le apex power)
    obtain ⟨old, new⟩ := width_append_of_even (show n / 2 ^ j % 2 = 0 by rw [zero])
    rw [if_neg low, old, new]

theorem addLoop_stop (fuel : Nat) (c : Counts) (l : Nat) :
    addLoop fuel c 0 l = .ok (.success, c, 0, l) := by
  cases fuel <;> simp [addLoop]

/-- The loop of `mt_add` ends at the level that covers all leaves. -/
theorem addLoop_midway (below : n + 1 < mtAlMaxElems) (fuel l : Nat)
    (low : l ≤ depth (n + 1)) (enough : depth (n + 1) ≤ l + fuel) :
    addLoop fuel (midway n l) (n / 2 ^ l) l =
      .ok (.success, widths (n + 1), 0, depth (n + 1)) := by
  have top : depth (n + 1) ≤ 29 :=
    Nat.clog_le_of_le_pow (by simp only [mtAlMaxElems] at below; omega)
  have done : ∀ {l}, l = depth (n + 1) → n < 2 ^ l := by
    rintro l rfl
    exact Nat.lt_of_succ_le (le_pow_depth (n + 1))
  induction fuel generalizing l with
  | zero =>
    obtain rfl : l = depth (n + 1) := by omega
    rw [Nat.div_eq_of_lt (done rfl), midway_of_lt (done rfl), addLoop_stop]
  | succ fuel ih =>
    by_cases apex : l = depth (n + 1)
    · subst l
      rw [Nat.div_eq_of_lt (done rfl), midway_of_lt (done rfl), addLoop_stop]
    have under : l < depth (n + 1) := by omega
    have power : 2 ^ l ≤ n := Nat.le_of_lt_succ (lt_depth_iff.mp under)
    have pos : 0 < n / 2 ^ l := Nat.div_pos power (Nat.two_pow_pos l)
    have inRange : l < treeLevels := by simp only [treeLevels]; omega
    have inRange' : l + 1 < treeLevels := by simp only [treeLevels]; omega
    have half : n / 2 ^ l / 2 = n / 2 ^ (l + 1) := by
      rw [Nat.div_div_eq_div_mul, ← Nat.pow_succ]
    have rest := ih (l + 1) under (by omega)
    rw [addLoop, if_pos ⟨pos, inRange⟩, Nat.shiftRight_one, half, mtRight_eq]
    rcases Nat.mod_two_eq_zero_or_one (n / 2 ^ l) with even | odd
    · rw [midway_of_even even]
      simpa [even] using rest
    obtain ⟨slot, last, new⟩ := width_append_of_odd odd
    rw [half] at slot last new
    have left : n / 2 ^ l - 1 < (midway n l).level l := by
      simp only [midway, Nat.le_refl, if_true]
      apply lt_width_of_complete
      exact Nat.le_trans (complete_left_of_path pos) (Nat.le_succ n)
    have above : (midway n l).level (l + 1) = width n (l + 1) := by simp [midway]
    have small := midway_level_below (l := l) below
    have written : max (width n (l + 1)) (n / 2 ^ (l + 1) + 1) = width (n + 1) (l + 1) := by
      omega
    have added := alAddOrUpdate_of_le (above ▸ small (l + 1)) slot
    rw [written] at added
    simpa [odd, sizeAt_of_lt inRange, sizeAt_of_lt inRange', alGet_of_lt (small l), left,
      above, added, midway_setSize] using rest

/-- One more leaf below the maximum. -/
theorem add_widths (below : n + 1 < mtAlMaxElems) :
    (widths n).add = .ok (.success, widths (n + 1), depth (n + 1)) := by
  have first : alAdd n = .ok (.success, n + 1) := alAdd_of_lt (by omega)
  have start : { (widths n).setSize 0 (n + 1) with elems := n + 1 } = midway n 0 := by
    simp only [midway, widths, setSize, Counts.mk.injEq, true_and]
    funext k
    cases k with
    | zero | succ k => simp
  have leaves : (widths n).sizeAt 0 = .ok n := sizeAt_of_lt (by decide)
  by_cases empty : n = 0
  · subst n
    have one : { (widths 0).setSize 0 1 with elems := 1 } = widths 1 := by
      rw [start, midway_of_lt (by decide)]
    have elems : ((widths 0).setSize 0 1).elems = 0 := rfl
    simp [add, leaves, first, elems, one, depth]
  have elems : ((widths n).setSize 0 (n + 1)).elems = n := rfl
  have top : depth (n + 1) ≤ 29 :=
    Nat.clog_le_of_le_pow (by simp only [mtAlMaxElems] at below; omega)
  have inRange : depth (n + 1) < treeLevels := by simp only [treeLevels]; omega
  have loop := addLoop_midway below treeLevels 0 (Nat.zero_le _) (by omega)
  rw [Nat.pow_zero, Nat.div_one] at loop
  have size := Nat.lt_of_le_of_lt (width_le (n + 1) (depth (n + 1))) below
  have entry : 0 < width (n + 1) (depth (n + 1)) := width_depth_pos (Nat.succ_pos n)
  have there : (widths (n + 1)).sizeAt (depth (n + 1)) = .ok (width (n + 1) (depth (n + 1))) :=
    sizeAt_of_lt inRange
  simp [add, leaves, first, elems, empty, start, loop, there, alGet_of_lt size, entry]

/-- `mt_add` admits every size below the maximum. -/
theorem adds_of_lt (below : n < mtAlMaxElems) : adds n = .ok (.success, widths n, depth n) := by
  induction n with
  | zero =>
    have none : create = widths 0 := by
      simp only [create, widths, Counts.mk.injEq, true_and]
      funext k
      exact (Nat.eq_zero_of_le_zero (width_le 0 k)).symm
    rw [adds, Exec.pure_eq_ok, none]
    rfl
  | succ n ih =>
    rw [adds, ih (by omega)]
    simpa using add_widths below

theorem alGet_max (offset : Nat) : alGet mtAlMaxElems offset = .error .assertion := by
  rw [alGet, Exec.assert, if_neg (Nat.lt_irrefl _)]
  rfl

/-- The call for leaf number `MT_AL_MAX_ELEMS` appends it to level 0 and then
fails the strict bound that `mt_al_get` asserts. -/
theorem add_widths_max (full : n + 1 = mtAlMaxElems) : (widths n).add = .error .assertion := by
  have first : alAdd n = .ok (.success, n + 1) := alAdd_of_lt (by omega)
  have leaves : (widths n).sizeAt 0 = .ok n := sizeAt_of_lt (by decide)
  have elems : ((widths n).setSize 0 (n + 1)).elems = n := rfl
  simp only [mtAlMaxElems] at full
  have nonempty : n ≠ 0 := by omega
  have pos : 0 < n := by omega
  have odd : n % 2 = 1 := by omega
  have loop : addLoop treeLevels { (widths n).setSize 0 (n + 1) with elems := n + 1 } n 0 =
      .error .assertion := by
    have size : { (widths n).setSize 0 (n + 1) with elems := n + 1 }.sizeAt 0 =
        .ok mtAlMaxElems := by
      rw [sizeAt_of_lt (by decide)]
      simp [setSize, full]
    rw [treeLevels, addLoop, if_pos ⟨pos, by decide⟩, mtRight_eq, size, Exec.ok_bind, alGet_max]
    simp [odd]
  simp [add, leaves, first, elems, nonempty, loop]

/-- The sizes `mt_add` admits are those below the maximum. -/
theorem adds_max : adds mtAlMaxElems = .error .assertion := by
  obtain ⟨n, full⟩ : ∃ n, n + 1 = mtAlMaxElems := ⟨536870911, rfl⟩
  rw [← full, adds, adds_of_lt (by omega)]
  simpa using add_widths_max full

theorem of_adds {c : Counts} (size : n ≤ mtAlMaxElems) (admitted : adds n = .ok (.success, c, l)) :
    n < mtAlMaxElems ∧ c = widths n ∧ l = depth n := by
  have below : n < mtAlMaxElems := by
    apply Nat.lt_of_le_of_ne size
    rintro rfl
    rw [adds_max] at admitted
    cases admitted
  rw [adds_of_lt below] at admitted
  cases admitted
  exact ⟨below, rfl, rfl⟩

/-! ## Where the readers stop -/

section

variable {n : Nat}

/-- The level at which `hasNextLevelExceptRoot` stops. -/
def stop (n : Nat) : Nat := min (depth n) 28

theorem hasNext_widths {l : Nat} (low : l ≤ 28) :
    (widths n).hasNext l = .ok (decide (l < stop n)) := by
  rw [hasNext, sizeAt_of_lt (by simp only [treeLevels]; omega), Exec.ok_bind, Exec.pure_eq_ok]
  congr 2
  simp only [widths, width_succ_pos_iff, stop, Nat.lt_min, lt_depth_iff, treeLevels, eq_iff_iff]
  omega

theorem level_below (below : n < mtAlMaxElems) (l : Nat) : width n l < mtAlMaxElems :=
  Nat.lt_of_le_of_lt (width_le n l) below

/-- Looking for a right neighbor fails no assertion. -/
theorem findRight_returns (below : n < mtAlMaxElems) {l : Nat} (inRange : l < treeLevels)
    (offset : Nat) : ∃ found, (widths n).findRight offset l = .ok found := by
  induction l generalizing offset with
  | zero =>
    rw [findRight, sizeAt_of_lt inRange, Exec.ok_bind]
    split
    · exact ⟨_, alGet_of_lt (level_below below 0) offset⟩
    · exact ⟨false, rfl⟩
  | succ l ih =>
    rw [findRight, sizeAt_of_lt inRange, Exec.ok_bind]
    split
    · exact ⟨_, alGet_of_lt (level_below below (l + 1)) offset⟩
    · exact ih (Nat.lt_of_succ_lt inRange) (offset <<< 1)

/-- On the path of a leaf `mt_hash` always gets its digests. -/
theorem pathArgs_widths (below : n < mtAlMaxElems) {q l : Nat} (inRange : l < treeLevels)
    (reached : q * 2 ^ l < n) : (widths n).pathArgs q l = .ok true := by
  rw [pathArgs, mtLeft_eq]
  by_cases even : q % 2 = 0
  · obtain ⟨found, ran⟩ := findRight_returns below inRange (q + 1)
    simp [even, ran]
  have left : q - 1 < width n l := by
    apply lt_width_of_complete
    rw [Nat.sub_add_cancel (by omega)]
    exact Nat.le_of_lt reached
  have size : (widths n).sizeAt l = .ok (width n l) := sizeAt_of_lt inRange
  simp [even, size, alGet_of_lt (level_below below l), left]

theorem rootLevel_widths {fuel l count : Nat} (top : l + count = stop n) (enough : count ≤ fuel) :
    (widths n).rootLevel fuel l = .ok (stop n) := by
  have limit : stop n ≤ 28 := Nat.min_le_right _ _
  induction fuel generalizing l count with
  | zero =>
    obtain rfl : l = stop n := by omega
    rfl
  | succ fuel ih =>
    rw [rootLevel, hasNext_widths (by omega), Exec.ok_bind]
    by_cases under : l < stop n
    · simpa [under] using ih (show l + 1 + (count - 1) = stop n by omega) (by omega)
    · obtain rfl : l = stop n := by omega
      simp

section

variable (below : n < mtAlMaxElems)

include below

theorem verifyLoop_widths {fuel q l count : Nat}
    (top : l + count = stop n) (enough : count ≤ fuel) (reached : q * 2 ^ l < n) :
    (widths n).verifyLoop fuel q l = .ok (.success, q / 2 ^ count, stop n) := by
  have limit : stop n ≤ 28 := Nat.min_le_right _ _
  induction fuel generalizing q l count with
  | zero =>
    obtain rfl : count = 0 := by omega
    obtain rfl : l = stop n := by omega
    simp [verifyLoop]
  | succ fuel ih =>
    rw [verifyLoop, hasNext_widths (by omega), Exec.ok_bind]
    cases count with
    | zero =>
      obtain rfl : l = stop n := by omega
      simp
    | succ count =>
      have under : l < stop n := by omega
      have halves : q / 2 / 2 ^ count = q / 2 ^ (count + 1) := by
        rw [Nat.div_div_eq_div_mul, ← Nat.pow_succ']
      have rest := ih (show l + 1 + count = stop n by omega) (by omega)
        (Mt.Shaped.half_reached reached)
      have args := pathArgs_widths below (show l < treeLevels by simp only [treeLevels]; omega)
        reached
      simpa [under, args, Nat.shiftRight_one, halves] using rest

/-- The loop of `mt_update` takes the same way. -/
theorem updateLoop_eq (fuel q l : Nat) :
    (widths n).updateLoop fuel q l = (widths n).verifyLoop fuel q l := by
  induction fuel generalizing q l with
  | zero => rfl
  | succ fuel ih =>
    rw [updateLoop, verifyLoop]
    by_cases inRange : l + 1 < treeLevels
    · have written : alUpdateIfExists ((widths n).level (l + 1)) = .ok .success := by
        rw [alUpdateIfExists]
        exact congrArg (· >>= fun _ => pure MtError.success)
          (Exec.assert_of (level_below below (l + 1)))
      simp [sizeAt_of_lt inRange, written, ih]
    · have trap : (widths n).sizeAt (l + 1) = .error .invalidAccess := if_neg inRange
      simp only [hasNext, trap]
      rfl

/-- `mt_get_root` reads the first entry of the level where its loop stops. -/
theorem getRoot_widths :
    (widths n).getRoot =
      if 0 < width n (stop n) then .ok (stop n) else .error .invalidAccess := by
  have limit : stop n ≤ 28 := Nat.min_le_right _ _
  have level := rootLevel_widths (n := n) (l := 0) (Nat.zero_add _)
    (show stop n ≤ treeLevels by simp only [treeLevels]; omega)
  have size : (widths n).sizeAt (stop n) = .ok (width n (stop n)) :=
    sizeAt_of_lt (by simp only [treeLevels]; omega)
  simp only [getRoot, level, size, Exec.ok_bind, alGet_of_lt (level_below below _),
    decide_eq_true_eq]
  rfl

/-- `mt_verify` and `mt_update` read the entry above the leaf at that level. -/
theorem verify_widths {offset : Nat} (inRange : offset < n) :
    (widths n).verify offset =
      if offset / 2 ^ stop n < width n (stop n) then .ok (.success, stop n)
      else .error .invalidAccess := by
  have limit : stop n ≤ 28 := Nat.min_le_right _ _
  have loop := verifyLoop_widths below (Nat.zero_add (stop n))
    (show stop n ≤ treeLevels by simp only [treeLevels]; omega)
    (show offset * 2 ^ 0 < n by simpa using inRange)
  have size : (widths n).sizeAt (stop n) = .ok (width n (stop n)) :=
    sizeAt_of_lt (by simp only [treeLevels]; omega)
  have leaf : offset < (widths n).elems := inRange
  simp only [verify, leaf, if_true, loop, size, Exec.ok_bind, alGet_of_lt (level_below below _),
    decide_eq_true_eq, ne_eq, not_true_eq_false, if_false]
  rfl

theorem update_eq_verify {offset : Nat} (inRange : offset < n) :
    (widths n).update offset = (widths n).verify offset := by
  have leaf : offset < (widths n).elems := inRange
  have leaves : (widths n).sizeAt 0 = .ok n := sizeAt_of_lt (by decide)
  have written : alUpdate n offset = .ok .success := by
    rw [alUpdate, Exec.assert_of below, Exec.ok_bind, if_pos inRange]
    rfl
  simp [update, verify, leaf, leaves, written, updateLoop_eq below]

end

end

/-- In a tree of any size that `mt_add` admits, the readers all return and agree
with `mt_add` on the level of the root exactly when there is at least one leaf and
there are at most `2^28`. -/
theorem agrees_iff {n l : Nat} {c : Counts} (size : n ≤ mtAlMaxElems)
    (admitted : adds n = .ok (.success, c, l)) : c.Agrees l ↔ 1 ≤ n ∧ n ≤ 2 ^ 28 := by
  obtain ⟨below, rfl, rfl⟩ := of_adds size admitted
  constructor
  · intro agrees
    have read := agrees.getRoot
    rw [getRoot_widths below] at read
    split at read
    · rename_i entry
      constructor
      · exact Nat.lt_of_lt_of_le entry (width_le n (stop n))
      · have meet : stop n = depth n := Except.ok.inj read
        calc n ≤ 2 ^ depth n := le_pow_depth n
          _ = 2 ^ stop n := by rw [meet]
          _ ≤ 2 ^ 28 := Nat.pow_le_pow_right (by decide) (Nat.min_le_right _ _)
    · cases read
  · rintro ⟨nonempty, small⟩
    have meet : stop n = depth n := Nat.min_eq_left (Nat.clog_le_of_le_pow small)
    have entry : 0 < width n (depth n) := width_depth_pos nonempty
    have apex : ∀ {offset}, offset < n → offset / 2 ^ depth n = 0 := fun inRange =>
      Nat.div_eq_of_lt (Nat.lt_of_lt_of_le inRange (le_pow_depth n))
    constructor
    · rw [getRoot_widths below, meet, if_pos entry]
    · intro offset inRange
      rw [verify_widths below inRange, meet, apex inRange, if_pos entry]
    · intro offset inRange
      rw [update_eq_verify below inRange, verify_widths below inRange, meet, apex inRange,
        if_pos entry]

theorem agrees_iff_three :
    ∃ c, adds 3 = .ok (.success, c, 2) ∧ (c.Agrees 2 ↔ 1 ≤ 3 ∧ 3 ≤ 2 ^ 28) := by
  have admitted : adds 3 = .ok (.success, widths 3, 2) := adds_of_lt (by decide)
  exact ⟨widths 3, admitted, agrees_iff (by decide) admitted⟩

/-- With `2^28 + 1` leaves `mt_add` puts the root on level 29. `mt_get_root` returns
the digest over the first `2^28` leaves, and `mt_verify` of the last leaf compares
with `NULL`. Of an empty tree `mt_get_root` copies from `NULL`. -/
theorem root_not_found :
    (∃ c, adds 268435457 = .ok (.success, c, 29) ∧ c.getRoot = .ok 28 ∧
        c.verify 268435456 = .error .invalidAccess ∧ ¬ c.Agrees 29) ∧
      adds 0 = .ok (.success, create, 0) ∧ ¬ create.Agrees 0 ∧
      mtGetRoot mtCreate = .error .invalidAccess := by
  have level : depth 268435457 = 29 := by
    apply Nat.le_antisymm
    · exact Nat.clog_le_of_le_pow (by decide)
    · exact lt_depth_iff.mpr (by decide)
  have stopped : stop 268435457 = 28 := by rw [stop, level]; decide
  have entries : width 268435457 28 = 1 := by decide
  have admitted := adds_of_lt (n := 268435457) (by decide)
  rw [level] at admitted
  have read : (widths 268435457).getRoot = .ok 28 := by
    rw [getRoot_widths (by decide), stopped, entries, if_pos (by decide)]
  refine ⟨⟨widths 268435457, admitted, read, ?_, ?_⟩, rfl, ?_, by decide +kernel⟩
  · rw [verify_widths (by decide) (by decide), stopped, entries, if_neg (by decide)]
  · intro agrees
    rw [agrees.getRoot] at read
    cases read
  · intro agrees
    have empty : create.getRoot = .error .invalidAccess := by decide +kernel
    rw [agrees.getRoot] at empty
    cases empty

end Counts

/-! ## The counts of a real tree -/

/-- The element counts of a tree. -/
def Mt.counts (mt : Mt) : Counts where
  elems := mt.elems
  level := fun l => (mt.level[l]?.map MtAl.elems).getD 0

theorem Mt.Represents.counts_eq {mt : Mt} {xs : List Digest} (rep : mt.Represents xs) :
    mt.counts = Counts.widths xs.length := by
  obtain ⟨levels, shaped, stored⟩ := rep.shaped
  simp only [Mt.counts, Counts.widths, Counts.mk.injEq]
  refine ⟨rep.elems, ?_⟩
  funext l
  by_cases inRange : l < treeLevels
  · obtain ⟨al, here, list⟩ := shaped.holds l inRange
    rw [here, Option.map_some, Option.getD_some, list.elems, shaped.length]
  have high : 30 ≤ l := Nat.le_of_not_lt inRange
  obtain ⟨k, rfl⟩ : ∃ k, l = k + 1 := ⟨l - 1, by omega⟩
  have none : mt.level[k + 1]? = none := by simp [Nat.le_of_not_lt inRange]
  have power : 2 ^ 26 ≤ 2 ^ k := Nat.pow_le_pow_right (by decide) (by omega)
  have zero : width xs.length (k + 1) = 0 := by
    apply Nat.le_zero.mp
    apply width_succ_le_iff.mpr
    have fits := rep.fits
    omega
  rw [none, Option.map_none, Option.getD_none, zero]

/-- A tree built by successful calls has the counts that `mt_add` admits for its
size, and the loop of `mt_get_root` stops at the level where `mt_add` left the root. -/
theorem runCalls_counts {calls : List MtCall} {codes : List MtError} {mt : Mt}
    (ran : runCalls calls mtCreate = .ok (codes, mt)) (ok : ∀ r ∈ codes, r = .success) :
    ∃ l, Counts.adds mt.elems = .ok (.success, mt.counts, l) ∧
      rootLevel mt treeLevels 0 = .ok l := by
  have rep : mt.Represents (leavesOf calls) := represents_of_all_success ran ok
  have fits := rep.fits
  obtain ⟨levels, shaped, _⟩ := rep.shaped
  refine ⟨depth mt.elems, ?_, ?_⟩
  · rw [rep.counts_eq, rep.elems, Counts.adds_of_lt]
    simp only [mtAlMaxElems]
    omega
  · rw [rep.elems]
    apply shaped.rootLevel (Nat.zero_add _)
    have top := depth_le fits
    simp only [treeLevels]
    omega

theorem runCalls_counts_three :
    ∃ codes mt, runCalls sampleCalls mtCreate = .ok (codes, mt) ∧ mt.elems = 3 ∧
      ∃ l, Counts.adds mt.elems = .ok (.success, mt.counts, l) ∧
        rootLevel mt treeLevels 0 = .ok l := by
  obtain ⟨codes, mt, ran, ok, rep⟩ := sampleCalls_valid.represents
  exact ⟨codes, mt, ran, rep.elems, runCalls_counts ran ok⟩

end Kvsev.Merkle
