import Kvsev.Merkle.ArrayList
import Kvsev.Merkle.Sha256

/-!
# The Merkle tree

The functions of `mt_impl.c`, on a record with the element counter and the
thirty levels. `MT_ERR_CHK` is an early return, so a loop returns its result
code next to the local variables it leaves behind. Every access to
`mt->level[l]` is checked, and an index of thirty or more traps.

A call of `mt_add` can allocate at level 0 and at one level per iteration; the
outcomes are given level by level. The tree pointer itself is never `NULL` in
the model.
-/

namespace Kvsev.Merkle

open Memory

/-- `mt_t` -/
structure Mt where
  elems : Nat
  level : Vector MtAl treeLevels

/-- `mt_create`, when its allocations succeed. -/
def mtCreate : Mt := { elems := 0, level := Vector.replicate treeLevels mtAlCreate }

namespace Mt

/-- `mt->level[l]` -/
def levelAt (mt : Mt) (l : Nat) : Exec MtAl := Exec.access mt.level[l]?

/-- The tree after a call changed the list behind `mt->level[l]`. -/
def setLevel (mt : Mt) (l : Nat) (al : MtAl) : Mt :=
  { mt with level := mt.level.setIfInBounds l al }

end Mt

/-- `mt_right` -/
def mtRight (offset : Nat) : Bool := offset &&& 1 ≠ 0

/-- `mt_left` -/
def mtLeft (offset : Nat) : Bool := ¬ (offset &&& 1 ≠ 0)

/-- The first `len` bytes of a tag, followed by zeroes. -/
def padTag (tag : List UInt8) (len : Nat) : Digest :=
  Vector.ofFn fun i : Fin hashLength => if i.val < len then tag.getD i.val 0 else 0

/-- `mt_init_hash`. The list holds the bytes that may be read behind the tag
pointer, and `memcpy` reads `len` of them. -/
def mtInitHash (tag : List UInt8) (len : Nat) : Exec Digest := do
  Exec.assert (len ≤ hashLength)
  if len ≤ tag.length then return padTag tag len else throw .invalidAccess

/-- `memcmp(digest, p, HASH_LENGTH) == 0`, where `p` may be `NULL`. -/
def digestEq (digest : Digest) (p : Option Digest) : Exec Bool := do
  let other ← Exec.access p
  return digest = other

/-- The loop of `mt_add`. It makes at most `TREE_LEVELS` iterations. -/
def mtAddLoop (allocs : Nat → Alloc) : Nat → Mt → Digest → Nat → Nat →
    Exec (MtError × Mt × Digest × Nat × Nat)
  | 0, mt, digest, q, l => return (.success, mt, digest, q, l)
  | fuel + 1, mt, digest, q, l => do
    if 0 < q ∧ l < treeLevels then
      if mtRight q then
        let left ← mtAlGet (← mt.levelAt l) (q - 1)
        match mtHash left (some digest) with
        | .error r => return (r, mt, digest, q, l)
        | .ok digest =>
          let (r, al) ← mtAlAddOrUpdate (← mt.levelAt (l + 1)) (some digest) (q >>> 1)
            (allocs (l + 1))
          let mt := mt.setLevel (l + 1) al
          if r ≠ .success then return (r, mt, digest, q, l)
          else mtAddLoop allocs fuel mt digest (q >>> 1) (l + 1)
      else mtAddLoop allocs fuel mt digest (q >>> 1) (l + 1)
    else return (.success, mt, digest, q, l)

/-- `mt_add` -/
def mtAdd (mt : Mt) (tag : Option (List UInt8)) (len : Nat) (allocs : Nat → Alloc) :
    Exec (MtError × Mt) := do
  match tag with
  | none => return (.illegalParam, mt)
  | some tag =>
    if hashLength < len then return (.illegalParam, mt)
    else
      let digest ← mtInitHash tag len
      let (r, al) ← mtAlAdd (← mt.levelAt 0) (some digest) (allocs 0)
      let mt := mt.setLevel 0 al
      if r ≠ .success then return (r, mt)
      else
        let mt := { mt with elems := u32 (mt.elems + 1) }
        if mt.elems = 1 then return (.success, mt)
        else
          let (r, mt, digest, q, l) ← mtAddLoop allocs treeLevels mt digest
            (u32Pred mt.elems) 0
          if r ≠ .success then return (r, mt)
          else
            let stored ← mtAlGet (← mt.levelAt l) q
            Exec.assert (← digestEq digest stored)
            return (.success, mt)

/-- The leaf with the given offset. -/
def mtLeaf (mt : Mt) (offset : Nat) : Exec (Option Digest) := do
  mtAlGet (← mt.levelAt 0) offset

/-- `mt_get_size` -/
def mtGetSize (mt : Mt) : Exec Nat := do
  return mtAlGetSize (← mt.levelAt 0)

/-- `mt_exists`; an error code is a nonzero integer too. -/
def mtExists (mt : Mt) (offset : Nat) : Exec (Except MtError Bool) := do
  if mtAlMaxElems < offset then return .error .illegalParam
  else
    let hash ← mtAlGet (← mt.levelAt 0) offset
    return .ok hash.isSome

/-- `hasNextLevelExceptRoot`. The bitwise `&` evaluates both sides. -/
def hasNextLevelExceptRoot (mt : Mt) (curLvl : Nat) : Exec Bool := do
  let next ← mt.levelAt (curLvl + 1)
  return curLvl + 1 < treeLevels - 1 ∧ 0 < mtAlGetSize next

/-- `findRightNeighbor`; the loop counts `l` down to zero. -/
def findRightNeighbor (mt : Mt) (offset : Nat) : Nat → Exec (Option Digest)
  | 0 => do
    let al ← mt.levelAt 0
    if offset < mtAlGetSize al then mtAlGet al offset else return none
  | l + 1 => do
    let al ← mt.levelAt (l + 1)
    if offset < mtAlGetSize al then mtAlGet al offset
    else findRightNeighbor mt (u32 (offset <<< 1)) l

/-- The arguments of the call of `mt_hash` that `mt_verify` and `mt_update` make
at one level, or `none` where they make no call. -/
def pathHashArgs (mt : Mt) (digest : Digest) (q l : Nat) :
    Exec (Option (Option Digest × Option Digest)) := do
  if mtLeft q then
    match ← findRightNeighbor mt (u32 (q + 1)) l with
    | some right => return some (some digest, some right)
    | none => return none
  else
    let left ← mtAlGet (← mt.levelAt l) (q - 1)
    return some (left, some digest)

/-- The digest after one level, or the code `MT_ERR_CHK` returns with. -/
def pathHash (digest : Digest) (args : Option (Option Digest × Option Digest)) :
    Except MtError Digest :=
  match args with
  | none => .ok digest
  | some (left, right) => mtHash left right

/-- The loop of `mt_verify`. Besides the local variables it returns the argument
pairs of the calls of `mt_hash`, in order, which the code does not keep. -/
def mtVerifyLoop (mt : Mt) : Nat → Digest → Nat → Nat →
    Exec (MtError × Digest × Nat × Nat × List (Option Digest × Option Digest))
  | 0, digest, q, l => return (.success, digest, q, l, [])
  | fuel + 1, digest, q, l => do
    if ← hasNextLevelExceptRoot mt l then
      let args ← pathHashArgs mt digest q l
      match pathHash digest args with
      | .error r => return (r, digest, q, l, args.toList)
      | .ok digest =>
        let (r, digest, q, l, calls) ← mtVerifyLoop mt fuel digest (q >>> 1) (l + 1)
        return (r, digest, q, l, args.toList ++ calls)
    else return (.success, digest, q, l, [])

/-- `mt_verify` -/
def mtVerify (mt : Mt) (tag : Option (List UInt8)) (len offset : Nat) : Exec MtError := do
  match tag with
  | none => return .illegalParam
  | some tag =>
    if len ≤ hashLength ∧ offset < mt.elems then
      let digest ← mtInitHash tag len
      let (r, digest, q, l, _) ← mtVerifyLoop mt treeLevels digest offset 0
      if r ≠ .success then return r
      else
        let stored ← mtAlGet (← mt.levelAt l) q
        if ← digestEq digest stored then return .success else return .rootMismatch
    else return .illegalParam

/-- The loop of `mt_update`. -/
def mtUpdateLoop : Nat → Mt → Digest → Nat → Nat → Exec (MtError × Mt × Digest × Nat × Nat)
  | 0, mt, digest, q, l => return (.success, mt, digest, q, l)
  | fuel + 1, mt, digest, q, l => do
    if ← hasNextLevelExceptRoot mt l then
      match pathHash digest (← pathHashArgs mt digest q l) with
      | .error r => return (r, mt, digest, q, l)
      | .ok digest =>
        let (r, al) ← mtAlUpdateIfExists (← mt.levelAt (l + 1)) (some digest) (q >>> 1)
        let mt := mt.setLevel (l + 1) al
        if r ≠ .success then return (r, mt, digest, q >>> 1, l + 1)
        else mtUpdateLoop fuel mt digest (q >>> 1) (l + 1)
    else return (.success, mt, digest, q, l)

/-- `mt_update` -/
def mtUpdate (mt : Mt) (tag : Option (List UInt8)) (len offset : Nat) :
    Exec (MtError × Mt) := do
  match tag with
  | none => return (.illegalParam, mt)
  | some tag =>
    if len ≤ hashLength ∧ offset < mt.elems then
      let digest ← mtInitHash tag len
      let (r, al) ← mtAlUpdate (← mt.levelAt 0) (some digest) offset
      let mt := mt.setLevel 0 al
      if r ≠ .success then return (r, mt)
      else
        let (r, mt, digest, q, l) ← mtUpdateLoop treeLevels mt digest offset 0
        if r ≠ .success then return (r, mt)
        else
          let stored ← mtAlGet (← mt.levelAt l) q
          Exec.assert (← digestEq digest stored)
          return (.success, mt)
    else return (.illegalParam, mt)

/-- The loop of `mt_get_root`: the first level with no level above it. -/
def rootLevel (mt : Mt) : Nat → Nat → Exec Nat
  | 0, l => return l
  | fuel + 1, l => do
    if ← hasNextLevelExceptRoot mt l then rootLevel mt fuel (l + 1) else return l

/-- `mt_get_root`, with the digest it copies out. -/
def mtGetRoot (mt : Mt) : Exec Digest := do
  let l ← rootLevel mt treeLevels 0
  Exec.access (← mtAlGet (← mt.levelAt l) 0)

end Kvsev.Merkle
