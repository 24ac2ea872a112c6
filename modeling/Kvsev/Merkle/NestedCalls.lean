import Kvsev.Merkle.Atomic
import Kvsev.Merkle.Tamper

/-!
# The nested calls of the tree functions

`mt_add`, `mt_update` and `mt_verify` look up siblings and pass what they find to
`mt_hash` and `memcmp` without a check. In a tree built by successful calls every
lookup finds a digest, so no nested call is refused and the assertions at the end
of `mt_add` and `mt_update` hold.

The loops do not keep the arguments of `mt_hash`. `mtAddHashes` and
`mtUpdateHashes` go through them once more and collect the pairs. A `NULL` in one
of them would come back as `MT_ERR_ILLEGAL_PARAM`, so the code a call returns
already tells that there was none.
-/

namespace Kvsev.Merkle

open Memory HashTree

/-- The argument pairs of `mt_hash` in the loop of `mt_add`. -/
def mtAddHashes (allocs : Nat → Alloc) : Nat → Mt → Digest → Nat → Nat →
    Exec (List (Option Digest × Option Digest))
  | 0, _, _, _, _ => return []
  | fuel + 1, mt, digest, q, l => do
    if 0 < q ∧ l < treeLevels then
      if mtRight q then
        let left ← mtAlGet (← mt.levelAt l) (q - 1)
        match mtHash left (some digest) with
        | .error _ => return [(left, some digest)]
        | .ok parent =>
          let (r, al) ← mtAlAddOrUpdate (← mt.levelAt (l + 1)) (some parent) (q >>> 1)
            (allocs (l + 1))
          if r ≠ .success then return [(left, some digest)]
          else
            let rest ← mtAddHashes allocs fuel (mt.setLevel (l + 1) al) parent (q >>> 1) (l + 1)
            return (left, some digest) :: rest
      else mtAddHashes allocs fuel mt digest (q >>> 1) (l + 1)
    else return []

/-- The argument pairs of `mt_hash` in a call of `mt_add` that passes its checks. -/
def addHashes (mt : Mt) (tag : List UInt8) (len : Nat) (allocs : Nat → Alloc) :
    Exec (List (Option Digest × Option Digest)) := do
  let digest ← mtInitHash tag len
  let (r, al) ← mtAlAdd (← mt.levelAt 0) (some digest) (allocs 0)
  if r ≠ .success then return []
  else
    let mt := { mt.setLevel 0 al with elems := u32 ((mt.setLevel 0 al).elems + 1) }
    if mt.elems = 1 then return []
    else mtAddHashes allocs treeLevels mt digest (u32Pred mt.elems) 0

/-- The argument pairs of `mt_hash` in the loop of `mt_update`. -/
def mtUpdateHashes : Nat → Mt → Digest → Nat → Nat → Exec (List (Option Digest × Option Digest))
  | 0, _, _, _, _ => return []
  | fuel + 1, mt, digest, q, l => do
    if ← hasNextLevelExceptRoot mt l then
      let args ← pathHashArgs mt digest q l
      match pathHash digest args with
      | .error _ => return args.toList
      | .ok parent =>
        let (r, al) ← mtAlUpdateIfExists (← mt.levelAt (l + 1)) (some parent) (q >>> 1)
        if r ≠ .success then return args.toList
        else
          let rest ← mtUpdateHashes fuel (mt.setLevel (l + 1) al) parent (q >>> 1) (l + 1)
          return args.toList ++ rest
    else return []

/-- The argument pairs of `mt_hash` in a call of `mt_update` that passes its checks. -/
def updateHashes (mt : Mt) (tag : List UInt8) (len offset : Nat) :
    Exec (List (Option Digest × Option Digest)) := do
  let digest ← mtInitHash tag len
  let (r, al) ← mtAlUpdate (← mt.levelAt 0) (some digest) offset
  if r ≠ .success then return []
  else mtUpdateHashes treeLevels (mt.setLevel 0 al) digest offset 0

/-- Neither argument is `NULL`. -/
def BothGiven (p : Option Digest × Option Digest) : Prop := p.1.isSome ∧ p.2.isSome

variable {digest : Digest}

theorem mtHash_ok {left right : Option Digest}
    (hashed : mtHash left right = .ok digest) : BothGiven (left, right) := by
  rcases left with _ | left
  · cases hashed
  rcases right with _ | right
  · cases hashed
  · exact ⟨rfl, rfl⟩

variable {r : MtError}

/-- Two digests are always hashed; `NULL` is refused as a bad parameter. -/
theorem mtHash_error {left right : Option Digest}
    (refused : mtHash left right = .error r) : r = .illegalParam := by
  rcases left with _ | left
  · cases refused
    rfl
  rcases right with _ | right
  · cases refused
    rfl
  · rw [mtHash_some] at refused
    cases refused

variable {digest' : Digest}

theorem mtAddHashes_of_loop {allocs : Nat → Alloc} {fuel : Nat} {mt mt' : Mt} {q q' l l' : Nat}
    (ran : mtAddLoop allocs fuel mt digest q l = .ok (r, mt', digest', q', l'))
    (proper : r ≠ .illegalParam) :
    ∃ hashes, mtAddHashes allocs fuel mt digest q l = .ok hashes ∧
      ∀ p ∈ hashes, BothGiven p := by
  induction fuel generalizing mt digest q l with
  | zero => exact ⟨[], rfl, List.forall_mem_nil _⟩
  | succ fuel ih =>
    rw [mtAddLoop] at ran
    rw [mtAddHashes]
    by_cases more : 0 < q ∧ l < treeLevels
    · rw [if_pos more] at ran ⊢
      by_cases right : mtRight q = true
      · rw [if_pos right] at ran ⊢
        simp only [Exec.bind_eq_ok] at ran
        obtain ⟨al, here, left, found, ran⟩ := ran
        simp only [here, found, Exec.ok_bind]
        cases hashed : mtHash left (some digest) with
        | error e =>
          rw [hashed] at ran
          cases ran
          exact absurd (mtHash_error hashed) proper
        | ok parent =>
          simp only [hashed, Exec.bind_eq_ok] at ran
          obtain ⟨next, above, ⟨code, al'⟩, stored, ran⟩ := ran
          simp only [above, stored, Exec.ok_bind]
          by_cases failed : code ≠ .success
          · rw [if_pos failed]
            exact ⟨_, rfl, List.forall_mem_singleton.mpr (mtHash_ok hashed)⟩
          · rw [if_neg failed] at ran ⊢
            obtain ⟨rest, more, given⟩ := ih ran
            exact ⟨_, by rw [more]; rfl,
              List.forall_mem_cons.mpr ⟨mtHash_ok hashed, given⟩⟩
      · rw [if_neg right] at ran ⊢
        exact ih ran
    · rw [if_neg more]
      exact ⟨[], rfl, List.forall_mem_nil _⟩

theorem pathHash_ok {parent : Digest} {args : Option (Option Digest × Option Digest)}
    (hashed : pathHash digest args = .ok parent) : ∀ p ∈ args.toList, BothGiven p := by
  cases args with
  | none => nofun
  | some args => exact List.forall_mem_singleton.mpr (mtHash_ok hashed)

theorem pathHash_error {args : Option (Option Digest × Option Digest)}
    (refused : pathHash digest args = .error r) : r = .illegalParam := by
  cases args with
  | none => cases refused
  | some args => exact mtHash_error refused

theorem mtUpdateHashes_of_loop {fuel : Nat} {mt mt' : Mt} {q q' l l' : Nat}
    (ran : mtUpdateLoop fuel mt digest q l = .ok (r, mt', digest', q', l'))
    (proper : r ≠ .illegalParam) :
    ∃ hashes, mtUpdateHashes fuel mt digest q l = .ok hashes ∧ ∀ p ∈ hashes, BothGiven p := by
  induction fuel generalizing mt digest q l with
  | zero => exact ⟨[], rfl, List.forall_mem_nil _⟩
  | succ fuel ih =>
    rw [mtUpdateLoop, Exec.bind_eq_ok] at ran
    obtain ⟨next, asked, ran⟩ := ran
    rw [mtUpdateHashes, asked, Exec.ok_bind]
    by_cases more : next = true
    · rw [if_pos more] at ran ⊢
      simp only [Exec.bind_eq_ok] at ran
      obtain ⟨args, found, ran⟩ := ran
      simp only [found, Exec.ok_bind]
      cases hashed : pathHash digest args with
      | error e =>
        rw [hashed] at ran
        cases ran
        exact absurd (pathHash_error hashed) proper
      | ok parent =>
        simp only [hashed, Exec.bind_eq_ok] at ran
        obtain ⟨above, here, ⟨code, al⟩, stored, ran⟩ := ran
        simp only [here, stored, Exec.ok_bind]
        by_cases failed : code ≠ .success
        · rw [if_pos failed]
          exact ⟨_, rfl, pathHash_ok hashed⟩
        rw [if_neg failed] at ran ⊢
        obtain ⟨rest, later, given⟩ := ih ran
        exact ⟨args.toList ++ rest, by rw [later]; rfl,
          List.forall_mem_append.mpr ⟨pathHash_ok hashed, given⟩⟩
    · rw [if_neg more]
      exact ⟨[], rfl, List.forall_mem_nil _⟩

theorem mtVerifyHashes_of_loop {mt : Mt} {fuel : Nat}
    {q q' l l' : Nat} {hashes : List (Option Digest × Option Digest)}
    (ran : mtVerifyLoop mt fuel digest q l = .ok (r, digest', q', l', hashes))
    (proper : r ≠ .illegalParam) : ∀ p ∈ hashes, BothGiven p := by
  induction fuel generalizing digest q l hashes with
  | zero =>
    cases ran
    nofun
  | succ fuel ih =>
    rw [mtVerifyLoop, Exec.bind_eq_ok] at ran
    obtain ⟨next, -, ran⟩ := ran
    split at ran
    · rw [Exec.bind_eq_ok] at ran
      obtain ⟨args, -, ran⟩ := ran
      cases hashed : pathHash digest args with
      | error e =>
        rw [hashed] at ran
        cases ran
        exact absurd (pathHash_error hashed) proper
      | ok parent =>
        simp only [hashed, Exec.bind_eq_ok] at ran
        obtain ⟨⟨r₁, digest₁, q₁, l₁, rest⟩, later, done⟩ := ran
        cases done
        exact List.forall_mem_append.mpr ⟨pathHash_ok hashed, ih later⟩
    · cases ran
      nofun

/-! ## Whole calls -/

section

variable {mt mt' : Mt} {tag : List UInt8} {len : Nat} {r : MtError}

theorem addHashes_of_mtAdd {allocs : Nat → Alloc} (short : len ≤ hashLength)
    (ran : mtAdd mt (some tag) len allocs = .ok (r, mt')) (proper : r ≠ .illegalParam) :
    ∃ hashes, addHashes mt tag len allocs = .ok hashes ∧ ∀ p ∈ hashes, BothGiven p := by
  simp only [mtAdd, if_neg (Nat.not_lt_of_le short), Exec.bind_eq_ok] at ran
  obtain ⟨digest, init, al, here, ⟨code, al'⟩, added, ran⟩ := ran
  simp only [addHashes, init, here, added, Exec.ok_bind]
  by_cases failed : code ≠ .success
  · rw [if_pos failed]
    exact ⟨[], rfl, List.forall_mem_nil _⟩
  rw [if_neg failed] at ran ⊢
  split at ran
  · rename_i first
    rw [if_pos first]
    exact ⟨[], rfl, List.forall_mem_nil _⟩
  rename_i more
  rw [if_neg more]
  simp only [Exec.bind_eq_ok] at ran
  obtain ⟨⟨code', mt₁, digest₁, q, l⟩, loop, ran⟩ := ran
  refine mtAddHashes_of_loop loop fun bad => proper ?_
  subst bad
  cases ran
  rfl

theorem updateHashes_of_mtUpdate {offset : Nat} (short : len ≤ hashLength)
    (inRange : offset < mt.elems) (ran : mtUpdate mt (some tag) len offset = .ok (r, mt'))
    (proper : r ≠ .illegalParam) :
    ∃ hashes, updateHashes mt tag len offset = .ok hashes ∧ ∀ p ∈ hashes, BothGiven p := by
  simp only [mtUpdate, if_pos (And.intro short inRange), Exec.bind_eq_ok] at ran
  obtain ⟨digest, init, al, here, ⟨code, al'⟩, stored, ran⟩ := ran
  simp only [updateHashes, init, here, stored, Exec.ok_bind]
  by_cases failed : code ≠ .success
  · rw [if_pos failed]
    exact ⟨[], rfl, List.forall_mem_nil _⟩
  rw [if_neg failed] at ran ⊢
  simp only [Exec.bind_eq_ok] at ran
  obtain ⟨⟨code', mt₁, digest₁, q, l⟩, loop, ran⟩ := ran
  refine mtUpdateHashes_of_loop loop fun bad => proper ?_
  subst bad
  cases ran
  rfl

theorem hashCalls_of_mtVerify {offset : Nat} (short : len ≤ hashLength)
    (readable : len ≤ tag.length) (inRange : offset < mt.elems)
    (ran : mtVerify mt (some tag) len offset = .ok r) (proper : r ≠ .illegalParam) :
    ∃ hashes, hashCalls mt (padTag tag len) offset = .ok hashes ∧ ∀ p ∈ hashes, BothGiven p := by
  simp only [mtVerify, if_pos (And.intro short inRange), mtInitHash_of_le short readable,
    Exec.ok_bind, Exec.bind_eq_ok] at ran
  obtain ⟨⟨code, digest, q, l, hashes⟩, loop, ran⟩ := ran
  refine ⟨hashes, by simp [hashCalls, loop], mtVerifyHashes_of_loop loop fun bad => proper ?_⟩
  subst bad
  cases ran
  rfl

end

/-- In a tree built by successful calls, a call that passes its entry checks
returns: no assertion fails and `memcmp` is given no `NULL`. It gives `mt_hash` no
`NULL` either, and no nested call refuses its arguments or its state. -/
theorem nested_calls_proper {calls : List MtCall} {codes : List MtError} {mt : Mt}
    (ran : runCalls calls mtCreate = .ok (codes, mt)) (ok : ∀ r ∈ codes, r = .success)
    (few : mt.elems ≤ 2 ^ 26 - 1) {tag : List UInt8} {len : Nat} (short : len ≤ hashLength)
    (readable : len ≤ tag.length) :
    (∀ allocs, ∃ r mt' hashes, mtAdd mt (some tag) len allocs = .ok (r, mt') ∧
      r ≠ .illegalParam ∧ r ≠ .illegalState ∧
      addHashes mt tag len allocs = .ok hashes ∧ ∀ p ∈ hashes, BothGiven p) ∧
    ∀ offset < mt.elems,
      (∃ r mt' hashes, mtUpdate mt (some tag) len offset = .ok (r, mt') ∧
        r ≠ .illegalParam ∧ r ≠ .illegalState ∧
        updateHashes mt tag len offset = .ok hashes ∧ ∀ p ∈ hashes, BothGiven p) ∧
      ∃ r hashes, mtVerify mt (some tag) len offset = .ok r ∧
        r ≠ .illegalParam ∧ r ≠ .illegalState ∧
        hashCalls mt (padTag tag len) offset = .ok hashes ∧ ∀ p ∈ hashes, BothGiven p := by
  have rep := represents_of_all_success ran ok
  have elems := rep.elems
  refine ⟨fun allocs => ?_, fun offset inRange => ⟨?_, ?_⟩⟩
  · obtain ⟨r, mt', added, outcome⟩ := mtAdd_spec rep (by omega) short readable allocs
    have proper : r ≠ .illegalParam ∧ r ≠ .illegalState := by
      rcases outcome with ⟨rfl, -⟩ | ⟨rfl, -⟩ | ⟨rfl, -⟩ <;> decide
    obtain ⟨hashes, recorded, given⟩ := addHashes_of_mtAdd short added proper.1
    exact ⟨r, mt', hashes, added, proper.1, proper.2, recorded, given⟩
  · obtain ⟨mt', updated, -⟩ := mtUpdate_spec rep short readable (elems ▸ inRange)
    obtain ⟨hashes, recorded, given⟩ :=
      updateHashes_of_mtUpdate short inRange updated (by decide)
    exact ⟨_, mt', hashes, updated, by decide, by decide, recorded, given⟩
  · obtain ⟨r, verified, proper⟩ : ∃ r, mtVerify mt (some tag) len offset = .ok r ∧
        (r = .success ∨ r = .rootMismatch) := by
      obtain ⟨levels, shaped, stored⟩ := rep.shaped
      have entry := climb_eq_root stored (List.getElem?_eq_getElem (elems ▸ inRange))
      have verified := shaped.mtVerify elems entry short readable (elems ▸ inRange)
      refine ⟨_, verified, ?_⟩
      split
      · exact .inl rfl
      · exact .inr rfl
    have decent : r ≠ .illegalParam ∧ r ≠ .illegalState := by
      rcases proper with rfl | rfl <;> decide
    obtain ⟨hashes, recorded, given⟩ :=
      hashCalls_of_mtVerify short readable inRange verified decent.1
    exact ⟨r, hashes, verified, decent.1, decent.2, recorded, given⟩

/-- Another first leaf for a tree with three. -/
theorem nested_calls_proper_three :
    ∃ codes mt, runCalls sampleCalls mtCreate = .ok (codes, mt) ∧ mt.elems = 3 ∧
      (∃ r mt' hashes, mtUpdate mt (some [9]) 1 0 = .ok (r, mt') ∧
        r ≠ .illegalParam ∧ r ≠ .illegalState ∧
        updateHashes mt [9] 1 0 = .ok hashes ∧ ∀ p ∈ hashes, BothGiven p) ∧
      ∃ r hashes, mtVerify mt (some [9]) 1 0 = .ok r ∧
        r ≠ .illegalParam ∧ r ≠ .illegalState ∧
        hashCalls mt (padTag [9] 1) 0 = .ok hashes ∧ hashes.length = 2 ∧
        ∀ p ∈ hashes, BothGiven p := by
  obtain ⟨codes, mt, ran, ok, rep⟩ := sampleCalls_valid.represents
  have three : mt.elems = 3 := rep.elems
  obtain ⟨updated, r, hashes, verified, param, state, recorded, given⟩ :=
    (nested_calls_proper ran ok (by rw [three]; decide) (show 1 ≤ hashLength by decide)
      (show 1 ≤ [(9 : UInt8)].length by decide)).2 0 (by rw [three]; decide)
  refine ⟨codes, mt, ran, three, updated, r, hashes, verified, param, state, recorded, ?_, given⟩
  obtain ⟨levels, shaped, stored⟩ := rep.shaped
  have neighbors (l : Nat) (covers : 1 * 2 ^ l < 3) :
      ∃ right, neighbor levels l 1 = some right := by
    rw [neighbor_eq_node mtHashValue fun k _ => stored k, ← Option.isSome_iff_exists,
      node_isSome_iff]
    exact covers
  obtain ⟨first, right₀⟩ := neighbors 0 (by decide)
  obtain ⟨second, right₁⟩ := neighbors 1 (by decide)
  have path := shaped.hashCalls (padTag [9] 1) (show 0 < 3 by decide)
  cases recorded.symm.trans path
  simp [show depth (leavesOf sampleCalls).length = 2 by decide, siblings, sibling, right₀, right₁,
    hashedPairs, Sibling.pair]

end Kvsev.Merkle
