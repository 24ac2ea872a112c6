import Kvsev.Merkle.Atomic

/-!
# Verification against a tampered tree

The adversary overwrites the bytes of any digests of the tree but keeps the
element counts, which the library reads from its own records, and the root.
`VerifySound` says what a successful `mt_verify` on such a tree still means for
the original one. It holds for every tree whose calls spared it. A failed
allocation above level 0 leaves a leaf that no stored root covers.
-/

namespace Kvsev.Merkle

open Memory Transition HashTree

/-- Overwrite the bytes of a level with `cell`. -/
def MtAl.tamper (al : MtAl) (cell : Nat → UInt8) : MtAl :=
  match al.store with
  | .live block => { al with store := .live { block with cell } }
  | .null | .freed => al

/-- Overwrite the bytes of every level. -/
def Mt.tamper (mt : Mt) (cells : Nat → Nat → UInt8) : Mt :=
  { mt with level := mt.level.mapIdx fun l al => al.tamper (cells l) }

/-- The argument pairs of the calls of `mt_hash` that `mt_verify` makes on its way
from a leaf digest at `offset` to the root. -/
def hashCalls (mt : Mt) (digest : Digest) (offset : Nat) :
    Exec (List (Option Digest × Option Digest)) := do
  let (_, _, _, _, calls) ← mtVerifyLoop mt treeLevels digest offset 0
  return calls

/-- However the digests other than the root are overwritten, a tag that passes
`mt_verify` is the tag of the original leaf, or two different pairs hashed on
the two paths have the same hash. -/
def VerifySound (mt : Mt) : Prop :=
  ∀ (cells : Nat → Nat → UInt8), mtGetRoot (mt.tamper cells) = mtGetRoot mt →
    ∀ (tag : List UInt8) (len i : Nat), len ≤ hashLength → len ≤ tag.length → i < mt.elems →
      mtVerify (mt.tamper cells) (some tag) len i = .ok .success →
      ∃ leaf calls calls', (do mtAlGet (← mt.levelAt 0) i) = .ok (some leaf) ∧
        hashCalls mt leaf i = .ok calls ∧
        hashCalls (mt.tamper cells) (padTag tag len) i = .ok calls' ∧
        (padTag tag len = leaf ∨ ∃ p ∈ calls, ∃ p' ∈ calls',
          p ≠ p' ∧ mtHash p.1 p.2 = mtHash p'.1 p'.2)

/-- The digests a block holds. -/
def blockDigests (block : Block UInt8) (n : Nat) : List Digest :=
  (List.range n).map fun i => Vector.ofFn fun j : Fin hashLength =>
    block.cell (i * hashLength + j)

/-- Overwriting bytes leaves some list of digests of the same length. -/
theorem MtAl.Holds.tamper {al : MtAl} {xs : List Digest} (holds : al.Holds xs)
    (cell : Nat → UInt8) :
    ∃ ys, (al.tamper cell).Holds ys ∧ ys.length = xs.length := by
  by_cases empty : xs = []
  · subst empty
    refine ⟨[], ⟨?_, by simp, fun h => absurd rfl h⟩, rfl⟩
    have elems := holds.elems
    simp only [MtAl.tamper]
    split <;> exact elems
  obtain ⟨block, c, live, size, le, _⟩ := holds.block empty
  have length : (blockDigests { block with cell } xs.length).length = xs.length := by
    simp [blockDigests]
  refine ⟨blockDigests { block with cell } xs.length, ⟨?_, ?_, fun _ => ?_⟩, length⟩
  · simp [MtAl.tamper, live, holds.elems, length]
  · rw [length]
    exact holds.fits
  · refine ⟨{ block with cell }, c, by simp [MtAl.tamper, live], size, by rwa [length], ?_⟩
    intro i inRange
    rw [length] at inRange
    rw [Block.read?_of_le]
    · simp [blockDigests]
    · rw [← Nat.succ_mul]
      exact size ▸ Nat.mul_le_mul_right _ (Nat.lt_of_lt_of_le inRange le)

/-- A tampered tree has the shape of the original. -/
theorem Mt.Shaped.tamper {mt : Mt} {levels : Nat → List Digest} {n : Nat}
    (shaped : mt.Shaped levels n) (cells : Nat → Nat → UInt8) :
    ∃ levels', (mt.tamper cells).Shaped levels' n := by
  have each : ∀ l, ∃ ys : List Digest, ys.length = width n l ∧ (l < treeLevels →
      ∃ al, (mt.tamper cells).level[l]? = some al ∧ al.Holds ys) := by
    intro l
    by_cases inRange : l < treeLevels
    · obtain ⟨al, here, list⟩ := shaped.holds l inRange
      obtain ⟨ys, list', length⟩ := list.tamper (cells l)
      refine ⟨ys, length.trans (shaped.length l), fun _ => ⟨al.tamper (cells l), ?_, list'⟩⟩
      simp [Mt.tamper, here]
    · exact ⟨levels l, shaped.length l, fun lt => absurd lt inRange⟩
  choose levels' length holds using each
  exact ⟨levels', fun l inRange => holds l inRange, length⟩

theorem Mt.Shaped.hashCalls {mt : Mt} {levels : Nat → List Digest} {n : Nat}
    (shaped : mt.Shaped levels n) (digest : Digest) {i : Nat} (inRange : i < n) :
    hashCalls mt digest i =
      .ok ((hashedPairs mtHashValue digest (siblings levels (depth n) 0 i)).map asArgs) := by
  have top := depth_le shaped.fits
  have loop := shaped.mtVerifyLoop digest (Nat.zero_add (depth n))
    (show depth n ≤ treeLevels by simp only [treeLevels]; omega)
    (show i * 2 ^ 0 < n by simpa using inRange)
  simp [Merkle.hashCalls, loop]

theorem asArgs_injective {p p' : Digest × Digest} (eq : asArgs p = asArgs p') : p = p' := by
  simpa [asArgs, Prod.ext_iff] using eq

/-- Verification is sound on every tree that is current for its leaves. -/
theorem Mt.Represents.verifySound {mt : Mt} {xs : List Digest} (rep : mt.Represents xs) :
    VerifySound mt := by
  intro cells sameRoot tag len i short readable inRange accepted
  obtain ⟨levels, shaped, stored⟩ := rep.shaped
  obtain ⟨levels', shaped'⟩ := shaped.tamper cells
  rw [rep.elems] at inRange
  obtain ⟨leaf, here⟩ : ∃ leaf, xs[i]? = some leaf := ⟨xs[i], List.getElem?_eq_getElem inRange⟩
  have entry := climb_eq_root stored here
  -- the root of the tampered tree is the value both climbs have to reach
  have nonempty : 0 < (levels' (depth xs.length)).length := by
    rw [shaped'.length]
    exact width_depth_pos (Nat.zero_lt_of_lt inRange)
  have entry' := List.getElem?_eq_getElem nonempty
  rw [shaped'.mtGetRoot entry', shaped.mtGetRoot entry] at sameRoot
  rw [shaped'.mtVerify rep.elems entry' short readable inRange] at accepted
  have meet := Except.ok.inj sameRoot
  have reached : climb mtHashValue (padTag tag len) (siblings levels' (depth xs.length) 0 i) =
      (levels' (depth xs.length))[0] := by
    by_contra off
    rw [if_neg off] at accepted
    cases accepted
  have shape := siblings_sameSide
    (fun k => (shaped.length k).trans (shaped'.length k).symm) (depth xs.length) 0 i
  refine ⟨leaf, _, _, ?_, shaped.hashCalls leaf inRange,
    shaped'.hashCalls (padTag tag len) inRange, ?_⟩
  · rw [shaped.holds.get (by decide), level_zero_eq (stored 0), here]
  · rcases climb_eq_or_collision mtHashValue shape (meet.symm.trans reached.symm) with
      eq | ⟨p, mem, p', mem', ne, collision⟩
    · exact .inl eq.symm
    · refine .inr ⟨asArgs p, List.mem_map_of_mem mem, asArgs p', List.mem_map_of_mem mem',
        fun eq => ne (asArgs_injective eq), ?_⟩
      simp [asArgs, mtHash_some, collision]

/-- Verification is sound on every tree that a sequence of calls builds, whatever
the calls return, if they spare the tree. -/
theorem runCalls_verifySound (calls : List MtCall)
    (sparing : Meets callStep Sparing mtCreate calls) :
    ∃ mt, run callStep mtCreate calls = .ok mt ∧ VerifySound mt := by
  obtain ⟨mt, ran⟩ := sparing_returns sparing
  obtain ⟨xs, rep⟩ := represents_of_run sparing ran
  exact ⟨mt, ran, rep.verifySound⟩

theorem runCalls_verifySound_sample :
    ∃ mt, run callStep mtCreate sampleCalls = .ok mt ∧ VerifySound mt :=
  runCalls_verifySound sampleCalls sampleCalls_valid.sparing

/-! ## A failed allocation -/

/-- The first leaf as it was, another second leaf. -/
def forgedCells : Nat → Nat → UInt8 := fun _ j => if j = 0 then 1 else if j = 32 then 9 else 0

/-- The failed call has counted its leaf already, and level 0 is taken for the
top level. The second leaf is then compared with itself. -/
theorem failedCalls_unsound :
    ∃ codes mt, runCalls failedCalls mtCreate = .ok (codes, mt) ∧ mt.elems = 2 ∧
      ¬ VerifySound mt := by
  have counted : (do
      let built ← runCalls failedCalls mtCreate
      return built.2.elems) = (.ok 2 : Exec Nat) := by decide +kernel
  have root : (do
      let built ← runCalls failedCalls mtCreate
      return (← mtGetRoot (built.2.tamper forgedCells)) = (← mtGetRoot built.2)) =
      (.ok true : Exec Bool) := by decide +kernel
  have accepted : (do
      let built ← runCalls failedCalls mtCreate
      mtVerify (built.2.tamper forgedCells) (some [9]) 1 1) = .ok .success := by decide +kernel
  have leaf : (do
      let built ← runCalls failedCalls mtCreate
      mtAlGet (← built.2.levelAt 0) 1) = .ok (some (padTag [2] 1)) := by decide +kernel
  have noCalls : (do
      let built ← runCalls failedCalls mtCreate
      hashCalls built.2 (padTag [2] 1) 1) = .ok [] := by decide +kernel
  obtain ⟨⟨codes, mt⟩, ran, elems⟩ := Exec.bind_eq_ok.mp counted
  simp only [ran, Exec.ok_bind, Exec.bind_eq_ok, Exec.pure_eq_ok, Except.ok.injEq,
    decide_eq_true_eq] at root accepted noCalls elems
  rw [ran, Exec.ok_bind] at leaf
  obtain ⟨r, forgedRoot, r', realRoot, rfl⟩ := root
  refine ⟨codes, mt, ran, elems, fun sound => ?_⟩
  obtain ⟨leaf', calls, calls', here, hashed, _, outcome⟩ :=
    sound forgedCells (forgedRoot.trans realRoot.symm) [9] 1 1 (by decide) (by decide)
      (by rw [elems]; decide) accepted
  obtain rfl : padTag [2] 1 = leaf' := by simpa using leaf.symm.trans here
  obtain rfl : [] = calls := by simpa using noCalls.symm.trans hashed
  rcases outcome with same | ⟨p, mem, _⟩
  · exact absurd same (by decide)
  · simp at mem

end Kvsev.Merkle
