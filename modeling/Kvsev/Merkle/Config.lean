import Kvsev.Memory.Block
import Mathlib.Algebra.Ring.Nat

/-!
# Constants and result codes of the Merkle tree library

The definitions of `merkle_config.h`, and the two machine-integer conventions
the library model uses: a `uint32_t` is a natural number reduced modulo `2^32`
at every operation that can leave the range, and a digest is a vector of
`HASH_LENGTH` bytes.
-/

namespace Kvsev.Merkle

/-- `HASH_LENGTH` -/
abbrev hashLength : Nat := 32

/-- `TREE_LEVELS` -/
abbrev treeLevels : Nat := 30

/-- `MT_AL_MAX_ELEMS` -/
abbrev mtAlMaxElems : Nat := 536870912

/-- `mt_hash_t` -/
abbrev Digest := Vector UInt8 hashLength

/-- `mt_error_t` -/
inductive MtError where
  | success
  | outOfMemory
  | illegalParam
  | illegalState
  | rootMismatch
  | unspecified
  deriving DecidableEq, Repr

/-- The value a `uint32_t` object holds after storing `n` in it. -/
def u32 (n : Nat) : Nat := n % 2 ^ 32

theorem u32_of_lt {n : Nat} (h : n < 2 ^ 32) : u32 n = n := Nat.mod_eq_of_lt h

/-- `n - 1` in `uint32_t` arithmetic, where zero wraps to the largest value. -/
def u32Pred (n : Nat) : Nat := u32 (n + (2 ^ 32 - 1))

theorem u32Pred_succ {n : Nat} (h : n < 2 ^ 32) : u32Pred (n + 1) = n := by
  rw [u32Pred, u32]
  omega

end Kvsev.Merkle
