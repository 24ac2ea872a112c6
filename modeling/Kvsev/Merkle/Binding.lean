import Kvsev.HashTree.Binding
import Kvsev.Merkle.Tamper

/-!
# Binding of the root

The server's leaves are 16-byte tags padded with zeroes to the length of a
digest. There is nothing else that tells a leaf from an inner node. Two trees of
such leaves, of any sizes, with the same root have the same leaves, unless SHA-256
has a collision among the pairs hashed in the two trees or one of the hash values
ends in sixteen zero bytes.
-/

namespace Kvsev.Merkle

open Memory Transition HashTree

/-- The pair is hashed on the way from some leaf of the tree to its root. -/
def Mt.Hashes (mt : Mt) (p : Option Digest × Option Digest) : Prop :=
  ∃ i leaf calls, mtLeaf mt i = .ok (some leaf) ∧ hashCalls mt leaf i = .ok calls ∧ p ∈ calls

/-- The last 16 bytes are all zero. -/
def EndsInZeroes (d : Digest) : Prop := ∀ j (h : j < hashLength), 16 ≤ j → d[j] = 0

theorem padTag_endsInZeroes (tag : List UInt8) : EndsInZeroes (padTag tag 16) := by
  intro j inRange high
  simp [padTag, Nat.not_lt_of_le high]

/-- The hashed pairs of a current tree are those its paths go through. -/
theorem Mt.Represents.hashes {mt : Mt} {xs : List Digest} (rep : mt.Represents xs)
    {p : Digest × Digest} (hashed : Hashed mtHashValue xs p) : mt.Hashes (asArgs p) := by
  obtain ⟨levels, shaped, stored⟩ := rep.shaped
  obtain ⟨i, leaf, here, mem⟩ := hashed.on_path stored (le_pow_depth xs.length)
  refine ⟨i, leaf, _, ?_, shaped.hashCalls leaf (List.getElem?_eq_some_iff.mp here).1,
    List.mem_map_of_mem mem⟩
  rw [rep.leaf, here]

/-- A leaf that is a hash value of either tree makes that value end in zeroes. -/
private theorem endsInZeroes_of_impersonates {mt : Mt} {xs ys : List Digest}
    (rep : mt.Represents xs) (zeroes : ∀ y ∈ ys, EndsInZeroes y)
    (bad : Impersonates mtHashValue xs ys) :
    ∃ p, mt.Hashes p ∧ ∃ d, mtHash p.1 p.2 = .ok d ∧ EndsInZeroes d := by
  obtain ⟨p, hashed, mem⟩ := bad
  exact ⟨asArgs p, rep.hashes hashed, mtHashValue p.1 p.2, mtHash_some p.1 p.2, zeroes _ mem⟩

private theorem leaves_endInZeroes {ws : List Written} (tags : ∀ w ∈ ws, w.2 = 16) :
    ∀ x ∈ ws.map leafDigest, EndsInZeroes x := by
  intro x mem
  obtain ⟨w, written, rfl⟩ := List.mem_map.mp mem
  rw [leafDigest, tags w written]
  exact padTag_endsInZeroes _

/-- Two trees built with 16-byte tags, by calls that spared them, and read with the same root
have the same leaves, or a collision or a hash value that ends in zeroes was computed in them. -/
theorem mtGetRoot_binding {calls calls' : List MtCall} {mt mt' : Mt}
    (sparing : Meets callStep Sparing mtCreate calls) (ran : run callStep mtCreate calls = .ok mt)
    (tags : ∀ call ∈ calls, call.written.2 = 16)
    (sparing' : Meets callStep Sparing mtCreate calls')
    (ran' : run callStep mtCreate calls' = .ok mt') (tags' : ∀ call ∈ calls', call.written.2 = 16)
    (nonempty : 0 < mt.elems) (nonempty' : 0 < mt'.elems) (same : mtGetRoot mt = mtGetRoot mt') :
    (mt.elems = mt'.elems ∧ ∃ leaves, mt.entries 0 = .ok leaves ∧ mt'.entries 0 = .ok leaves) ∨
      (∃ p p', mt.Hashes p ∧ mt'.Hashes p' ∧ p ≠ p' ∧ mtHash p.1 p.2 = mtHash p'.1 p'.2) ∨
      ∃ p, (mt.Hashes p ∨ mt'.Hashes p) ∧ ∃ d, mtHash p.1 p.2 = .ok d ∧ EndsInZeroes d := by
  obtain ⟨ws, ⟨rep, -⟩, wrote⟩ := kept_of_run (P := (·.2 = 16)) sparing tags ran
  obtain ⟨ws', ⟨rep', -⟩, wrote'⟩ := kept_of_run (P := (·.2 = 16)) sparing' tags' ran'
  obtain ⟨root, spec, read⟩ := rep.getRoot (rep.elems ▸ nonempty)
  obtain ⟨root', spec', read'⟩ := rep'.getRoot (rep'.elems ▸ nonempty')
  obtain rfl : root = root' := by
    rw [read, read'] at same
    exact Except.ok.inj same
  rcases eq_or_collide_of_mth_eq spec spec' with eq | collide | bad | bad
  · left
    obtain ⟨levels, holds, stored⟩ := rep.levels
    obtain ⟨levels', holds', stored'⟩ := rep'.levels
    refine ⟨by rw [rep.elems, rep'.elems, eq], ws.map leafDigest, ?_, ?_⟩
    · rw [holds.entries (by decide), level_zero_eq (stored 0)]
    · rw [holds'.entries (by decide), level_zero_eq (stored' 0), eq]
  · right; left
    obtain ⟨p, p', hashed, hashed', ne, collision⟩ := collide
    refine ⟨asArgs p, asArgs p', rep.hashes hashed, rep'.hashes hashed',
      fun eq => ne (asArgs_injective eq), ?_⟩
    simp [asArgs, mtHash_some, collision]
  · right; right
    obtain ⟨p, hashed, value⟩ := endsInZeroes_of_impersonates rep (leaves_endInZeroes wrote') bad
    exact ⟨p, .inl hashed, value⟩
  · right; right
    obtain ⟨p, hashed, value⟩ := endsInZeroes_of_impersonates rep' (leaves_endInZeroes wrote) bad
    exact ⟨p, .inr hashed, value⟩

/-- A tag of sixteen equal bytes. -/
def wideTag (byte : UInt8) : Option (List UInt8) := some (List.replicate 16 byte)

/-- Two leaves, the first of them written twice. -/
def overwrittenCalls : List MtCall :=
  let fresh : Nat → Alloc := fun _ => some fun _ => 0
  [.add (wideTag 7) 16 fresh, .add (wideTag 2) 16 fresh, .update (wideTag 1) 16 0]

/-- The same leaves, each written once. -/
def directCalls : List MtCall :=
  let fresh : Nat → Alloc := fun _ => some fun _ => 0
  [.add (wideTag 1) 16 fresh, .add (wideTag 2) 16 fresh]

private theorem valid_of_fresh {calls : List MtCall} (accepted : AllAccepted calls 0)
    (fresh : ∀ call ∈ calls, call.written.2 = 16 ∧ call.Readable ∧ ∀ l, call.allocs l ≠ none)
    (few : (lastWritten calls).length ≤ 2 ^ 26) : ValidCalls calls :=
  ⟨fun call mem => (fresh call mem).2.1, accepted, fun call mem => (fresh call mem).2.2, few⟩

theorem mtGetRoot_binding_sample :
    ∃ mt mt', run callStep mtCreate overwrittenCalls = .ok mt ∧
      run callStep mtCreate directCalls = .ok mt' ∧ mtGetRoot mt = mtGetRoot mt' ∧
      ((mt.elems = mt'.elems ∧ ∃ leaves, mt.entries 0 = .ok leaves ∧ mt'.entries 0 = .ok leaves) ∨
        (∃ p p', mt.Hashes p ∧ mt'.Hashes p' ∧ p ≠ p' ∧ mtHash p.1 p.2 = mtHash p'.1 p'.2) ∨
        ∃ p, (mt.Hashes p ∨ mt'.Hashes p) ∧ ∃ d, mtHash p.1 p.2 = .ok d ∧ EndsInZeroes d) := by
  have tags : ∀ call ∈ overwrittenCalls,
      call.written.2 = 16 ∧ call.Readable ∧ ∀ l, call.allocs l ≠ none := by
    simp [overwrittenCalls, wideTag, MtCall.written, MtCall.Readable, MtCall.allocs]
  have tags' : ∀ call ∈ directCalls,
      call.written.2 = 16 ∧ call.Readable ∧ ∀ l, call.allocs l ≠ none := by
    simp [directCalls, wideTag, MtCall.written, MtCall.Readable, MtCall.allocs]
  have valid := valid_of_fresh (by simp [overwrittenCalls, wideTag, AllAccepted, MtCall.Accepted,
    MtCall.isAdd, hashLength]) tags (by decide)
  have valid' := valid_of_fresh (by simp [directCalls, wideTag, AllAccepted, MtCall.Accepted,
    hashLength]) tags' (by decide)
  obtain ⟨codes, mt, ran, -, rep⟩ := valid.represents
  obtain ⟨codes', mt', ran', -, rep'⟩ := valid'.represents
  have leaves : leavesOf overwrittenCalls = leavesOf directCalls := by decide
  have size : (leavesOf directCalls).length = 2 := by decide
  rw [leaves] at rep
  obtain ⟨root, spec, read⟩ := rep.getRoot (by rw [size]; decide)
  obtain ⟨root', spec', read'⟩ := rep'.getRoot (by rw [size]; decide)
  have same : mtGetRoot mt = mtGetRoot mt' := by
    rw [read, read', Option.some.inj (spec.symm.trans spec')]
  have ran := run_of_runCalls ran
  have ran' := run_of_runCalls ran'
  exact ⟨mt, mt', ran, ran', same, mtGetRoot_binding valid.sparing ran
    (fun call mem => (tags call mem).1) valid'.sparing ran' (fun call mem => (tags' call mem).1)
    (by rw [rep.elems, size]; decide) (by rw [rep'.elems, size]; decide) same⟩

/-- Whether the tree has at most two leaves and hashes nothing for either of them. -/
def hashesNothing (mt : Mt) : Exec Bool := do
  let size ← mtGetSize mt
  let first ← mtLeaf mt 0
  let second ← mtLeaf mt 1
  let calls ← hashCalls mt (first.getD default) 0
  let calls' ← hashCalls mt (second.getD default) 1
  return size ≤ 2 ∧ calls = [] ∧ calls' = []

private theorem lt_size_of_leaf {mt : Mt} {i n : Nat} {leaf : Digest}
    (found : mtLeaf mt i = .ok (some leaf)) (sized : mtGetSize mt = .ok n) : i < n := by
  obtain ⟨al, level, got⟩ := Exec.bind_eq_ok.mp found
  obtain ⟨al', level', size⟩ := Exec.bind_eq_ok.mp sized
  cases level.symm.trans level'
  obtain rfl : al.elems = n := Except.ok.inj size
  by_contra beyond
  obtain ⟨-, -, got⟩ := Exec.bind_eq_ok.mp got
  rw [if_neg beyond] at got
  cases got

private theorem not_hashes_of_hashesNothing {mt : Mt} (quiet : hashesNothing mt = .ok true)
    (p : Option Digest × Option Digest) : ¬mt.Hashes p := by
  rintro ⟨i, leaf, calls, found, hashed, mem⟩
  simp only [hashesNothing, Exec.bind_eq_ok] at quiet
  obtain ⟨size, sized, first, found₀, second, found₁, calls₀, hashed₀, calls₁, hashed₁, eq⟩ := quiet
  obtain ⟨few, rfl, rfl⟩ : size ≤ 2 ∧ calls₀ = [] ∧ calls₁ = [] := by simpa using eq
  have bound := lt_size_of_leaf found sized
  obtain rfl | rfl : i = 0 ∨ i = 1 := by omega
  · cases found.symm.trans found₀
    cases hashed.symm.trans hashed₀
    cases mem
  · cases found.symm.trans found₁
    cases hashed.symm.trans hashed₁
    cases mem

/-- One leaf, and a second one for which no block is granted at level 1. The root is that of the
first leaf alone, and no pair is hashed. -/
theorem failedTags_unbound :
    ∃ mt mt', run callStep mtCreate [.add (wideTag 1) 16 fun _ => some fun _ => 0,
        .add (wideTag 2) 16 fun l => if l = 0 then some fun _ => 0 else none] = .ok mt ∧
      run callStep mtCreate [.add (wideTag 1) 16 fun _ => some fun _ => 0] = .ok mt' ∧
      mtGetRoot mt = mtGetRoot mt' ∧ mt.elems = 2 ∧ mt'.elems = 1 ∧ (∀ p, ¬mt.Hashes p) ∧
      ∀ p, ¬mt'.Hashes p := by
  have facts : (do
      let mt ← run callStep mtCreate [.add (wideTag 1) 16 fun _ => some fun _ => 0,
        .add (wideTag 2) 16 fun l => if l = 0 then some fun _ => 0 else none]
      let mt' ← run callStep mtCreate [.add (wideTag 1) 16 fun _ => some fun _ => 0]
      let root ← mtGetRoot mt
      let root' ← mtGetRoot mt'
      let quiet ← hashesNothing mt
      let quiet' ← hashesNothing mt'
      return (mt.elems, mt'.elems, decide (root = root'), quiet, quiet')) =
      (.ok (2, 1, true, true, true) : Exec (Nat × Nat × Bool × Bool × Bool)) := by
    decide +kernel
  obtain ⟨mt, ran, facts⟩ := Exec.bind_eq_ok.mp facts
  obtain ⟨mt', ran', facts⟩ := Exec.bind_eq_ok.mp facts
  obtain ⟨root, read, facts⟩ := Exec.bind_eq_ok.mp facts
  obtain ⟨root', read', facts⟩ := Exec.bind_eq_ok.mp facts
  obtain ⟨_, quiet, facts⟩ := Exec.bind_eq_ok.mp facts
  obtain ⟨_, quiet', facts⟩ := Exec.bind_eq_ok.mp facts
  simp only [Exec.pure_eq_ok, Except.ok.injEq, Prod.mk.injEq, decide_eq_true_eq] at facts
  obtain ⟨two, one, rfl, rfl, rfl⟩ := facts
  exact ⟨mt, mt', ran, ran', read.trans read'.symm, two, one, not_hashes_of_hashesNothing quiet,
    not_hashes_of_hashesNothing quiet'⟩

end Kvsev.Merkle
