import Kvsev.Merkle.Config

/-!
# SHA-256 as the library computes it

The part of `sha224-256.c` that `mt_hash` reaches: reset, input, padding and the
block transformation, over the same context record. Results are the integer
codes of `sha.h`. The message buffer of a context on the stack starts with
indeterminate bytes; each of them is overwritten before a block is processed,
so the model starts from zeroes.

The only statement proved here is the one the tree needs: feeding a context at
most `2^28` bytes after a reset never makes it corrupted.
-/

namespace Kvsev.Merkle

/-- The result codes of `sha.h`. -/
inductive ShaCode where
  | shaSuccess
  | shaNull
  | shaInputTooLong
  | shaStateError
  | shaBadParam
  deriving DecidableEq, Repr

/-- `SHA256Context` -/
structure SHA256Context where
  intermediateHash : Vector UInt32 8
  lengthLow : UInt32
  lengthHigh : UInt32
  messageBlockIndex : Nat
  messageBlock : Vector UInt8 64
  computed : Bool
  /-- The C field is an `int`; the code stored in it is what later calls return. -/
  corrupted : Option ShaCode

/-- `SHA256_SHR` -/
def sha256Shr (bits word : UInt32) : UInt32 := word >>> bits

/-- `SHA256_ROTR` -/
def sha256Rotr (bits word : UInt32) : UInt32 := (word >>> bits) ||| (word <<< (32 - bits))

/-- `SHA256_SIGMA0` -/
def sha256SIGMA0 (word : UInt32) : UInt32 :=
  sha256Rotr 2 word ^^^ sha256Rotr 13 word ^^^ sha256Rotr 22 word

/-- `SHA256_SIGMA1` -/
def sha256SIGMA1 (word : UInt32) : UInt32 :=
  sha256Rotr 6 word ^^^ sha256Rotr 11 word ^^^ sha256Rotr 25 word

/-- `SHA256_sigma0` -/
def sha256Sigma0 (word : UInt32) : UInt32 :=
  sha256Rotr 7 word ^^^ sha256Rotr 18 word ^^^ sha256Shr 3 word

/-- `SHA256_sigma1` -/
def sha256Sigma1 (word : UInt32) : UInt32 :=
  sha256Rotr 17 word ^^^ sha256Rotr 19 word ^^^ sha256Shr 10 word

/-- `SHA_Ch` -/
def shaCh (x y z : UInt32) : UInt32 := (x &&& y) ^^^ (~~~x &&& z)

/-- `SHA_Maj` -/
def shaMaj (x y z : UInt32) : UInt32 := (x &&& y) ^^^ (x &&& z) ^^^ (y &&& z)

/-- `SHA256_H0` -/
def sha256H0 : Vector UInt32 8 := #v[
  0x6A09E667, 0xBB67AE85, 0x3C6EF372, 0xA54FF53A,
  0x510E527F, 0x9B05688C, 0x1F83D9AB, 0x5BE0CD19]

/-- The round constants `K`. -/
def sha256K : Vector UInt32 64 := #v[
  0x428a2f98, 0x71374491, 0xb5c0fbcf, 0xe9b5dba5, 0x3956c25b,
  0x59f111f1, 0x923f82a4, 0xab1c5ed5, 0xd807aa98, 0x12835b01,
  0x243185be, 0x550c7dc3, 0x72be5d74, 0x80deb1fe, 0x9bdc06a7,
  0xc19bf174, 0xe49b69c1, 0xefbe4786, 0x0fc19dc6, 0x240ca1cc,
  0x2de92c6f, 0x4a7484aa, 0x5cb0a9dc, 0x76f988da, 0x983e5152,
  0xa831c66d, 0xb00327c8, 0xbf597fc7, 0xc6e00bf3, 0xd5a79147,
  0x06ca6351, 0x14292967, 0x27b70a85, 0x2e1b2138, 0x4d2c6dfc,
  0x53380d13, 0x650a7354, 0x766a0abb, 0x81c2c92e, 0x92722c85,
  0xa2bfe8a1, 0xa81a664b, 0xc24b8b70, 0xc76c51a3, 0xd192e819,
  0xd6990624, 0xf40e3585, 0x106aa070, 0x19a4c116, 0x1e376c08,
  0x2748774c, 0x34b0bcb5, 0x391c0cb3, 0x4ed8aa4a, 0x5b9cca4f,
  0x682e6ff3, 0x748f82ee, 0x78a5636f, 0x84c87814, 0x8cc70208,
  0x90befffa, 0xa4506ceb, 0xbef9a3f7, 0xc67178f2]

/-- The word sequence `W` of one block. -/
def sha256Words (block : Vector UInt8 64) : Vector UInt32 64 :=
  let first : Vector UInt32 64 := Vector.ofFn fun t : Fin 64 =>
    if h : t.val < 16 then
      (block[4 * t.val].toUInt32 <<< 24) ||| (block[4 * t.val + 1].toUInt32 <<< 16) |||
        (block[4 * t.val + 2].toUInt32 <<< 8) ||| block[4 * t.val + 3].toUInt32
    else 0
  (List.range' 16 48).foldl (fun w t =>
    w.setIfInBounds t (sha256Sigma1 (w.getD (t - 2) 0) + w.getD (t - 7) 0 +
      sha256Sigma0 (w.getD (t - 15) 0) + w.getD (t - 16) 0)) first

/-- One iteration of the 64-round loop, on the buffers `A` to `H`. -/
def sha256Round (w : Vector UInt32 64) (buf : Vector UInt32 8) (t : Nat) : Vector UInt32 8 :=
  let temp1 := buf[7] + sha256SIGMA1 buf[4] + shaCh buf[4] buf[5] buf[6] +
    sha256K.getD t 0 + w.getD t 0
  let temp2 := sha256SIGMA0 buf[0] + shaMaj buf[0] buf[1] buf[2]
  #v[temp1 + temp2, buf[0], buf[1], buf[2], buf[3] + temp1, buf[4], buf[5], buf[6]]

/-- `SHA224_256ProcessMessageBlock` -/
def sha224_256ProcessMessageBlock (context : SHA256Context) : SHA256Context :=
  let w := sha256Words context.messageBlock
  let buf := (List.range 64).foldl (sha256Round w) context.intermediateHash
  { context with
    intermediateHash := Vector.ofFn fun i : Fin 8 => context.intermediateHash[i] + buf[i]
    messageBlockIndex := 0 }

/-- `SHA224_256AddLength`; the length is a number of bits. -/
def sha224_256AddLength (context : SHA256Context) (length : UInt32) : SHA256Context :=
  let low := context.lengthLow + length
  if low < context.lengthLow then
    let high := context.lengthHigh + 1
    { context with
      lengthLow := low
      lengthHigh := high
      corrupted := if high = 0 then some .shaNull else none }
  else { context with lengthLow := low, corrupted := none }

/-- `SHA256Reset` -/
def sha256Reset (context : SHA256Context) : ShaCode × SHA256Context :=
  (.shaSuccess, { context with
    lengthLow := 0
    lengthHigh := 0
    messageBlockIndex := 0
    intermediateHash := sha256H0
    computed := false
    corrupted := none })

/-- `context->Message_Block[context->Message_Block_Index++] = byte` -/
def putByte (context : SHA256Context) (byte : UInt8) : SHA256Context :=
  { context with
    messageBlock := context.messageBlock.setIfInBounds context.messageBlockIndex byte
    messageBlockIndex := context.messageBlockIndex + 1 }

/-- One byte of `SHA256Input`. -/
def sha256InputByte (context : SHA256Context) (byte : UInt8) : SHA256Context :=
  let context := sha224_256AddLength (putByte context byte) 8
  if context.corrupted.isNone ∧ context.messageBlockIndex = 64 then
    sha224_256ProcessMessageBlock context
  else context

/-- The loop of `SHA256Input`, which stops when the context becomes corrupted. -/
def sha256InputLoop : SHA256Context → List UInt8 → SHA256Context
  | context, [] => context
  | context, byte :: bytes =>
    if context.corrupted.isSome then context
    else sha256InputLoop (sha256InputByte context byte) bytes

/-- `SHA256Input` -/
def sha256Input (context : SHA256Context) (messageArray : List UInt8) :
    ShaCode × SHA256Context :=
  if messageArray.length = 0 then (.shaSuccess, context)
  else if context.computed then
    (.shaStateError, { context with corrupted := some .shaStateError })
  else match context.corrupted with
    | some code => (code, context)
    | none => (.shaSuccess, sha256InputLoop context messageArray)

/-- Put `byte` until the block holds `upTo` bytes. -/
def putBytesUpTo (context : SHA256Context) (upTo : Nat) (byte : UInt8) : SHA256Context :=
  (List.range (upTo - context.messageBlockIndex)).foldl (fun c _ => putByte c byte) context

/-- The last eight octets of a padded message: its length in bits. -/
def putLength (context : SHA256Context) : SHA256Context :=
  let put (c : SHA256Context) (i : Nat) (word : UInt32) :=
    { c with messageBlock := c.messageBlock.setIfInBounds i word.toUInt8 }
  let c := put context 56 (context.lengthHigh >>> 24)
  let c := put c 57 (context.lengthHigh >>> 16)
  let c := put c 58 (context.lengthHigh >>> 8)
  let c := put c 59 context.lengthHigh
  let c := put c 60 (context.lengthLow >>> 24)
  let c := put c 61 (context.lengthLow >>> 16)
  let c := put c 62 (context.lengthLow >>> 8)
  put c 63 context.lengthLow

/-- `SHA224_256PadMessage` -/
def sha224_256PadMessage (context : SHA256Context) (padByte : UInt8) : SHA256Context :=
  let context :=
    if 64 - 8 ≤ context.messageBlockIndex then
      sha224_256ProcessMessageBlock (putBytesUpTo (putByte context padByte) 64 0)
    else putByte context padByte
  sha224_256ProcessMessageBlock (putLength (putBytesUpTo context (64 - 8) 0))

/-- `SHA224_256Finalize` -/
def sha224_256Finalize (context : SHA256Context) (padByte : UInt8) : SHA256Context :=
  { sha224_256PadMessage context padByte with
    messageBlock := Vector.replicate 64 0
    lengthLow := 0
    lengthHigh := 0
    computed := true }

/-- `SHA256Result`, with the digest it writes when it succeeds. -/
def sha256Result (context : SHA256Context) : Except ShaCode Digest :=
  match context.corrupted with
  | some code => .error code
  | none =>
    let context := if context.computed then context else sha224_256Finalize context 0x80
    .ok (Vector.ofFn fun i : Fin 32 =>
      (context.intermediateHash.getD (i.val >>> 2) 0 >>>
        (8 * (3 - (i.val &&& 0x03))).toUInt32).toUInt8)

/-- The context `mt_hash` declares on its stack, before the reset. -/
def stackContext : SHA256Context where
  intermediateHash := Vector.replicate 8 0
  lengthLow := 0
  lengthHigh := 0
  messageBlockIndex := 0
  messageBlock := Vector.replicate 64 0
  computed := false
  corrupted := none

/-- `mt_hash`. The output buffer is written only when the call succeeds. -/
def mtHash (left right : Option Digest) : Except MtError Digest :=
  match left, right with
  | some left, some right =>
    let (r, ctx) := sha256Reset stackContext
    if r ≠ .shaSuccess then .error .illegalState else
    let (r, ctx) := sha256Input ctx left.toList
    if r ≠ .shaSuccess then .error .illegalState else
    let (r, ctx) := sha256Input ctx right.toList
    if r ≠ .shaSuccess then .error .illegalState else
    match sha256Result ctx with
    | .error _ => .error .illegalState
    | .ok digest => .ok digest
  | _, _ => .error .illegalParam

/-! ## Hashing two digests always succeeds -/

/-- A context that has been fed `k` bytes and is still usable. -/
structure SHA256Context.Fed (context : SHA256Context) (k : Nat) : Prop where
  computed : context.computed = false
  corrupted : context.corrupted = none
  length : context.lengthLow.toNat = 8 * k

theorem sha256Reset_fed (context : SHA256Context) : (sha256Reset context).2.Fed 0 :=
  ⟨rfl, rfl, rfl⟩

variable {context : SHA256Context}

theorem sha256InputByte_fed {k : Nat} (fed : context.Fed k)
    (small : k < 2 ^ 28) (byte : UInt8) : (sha256InputByte context byte).Fed (k + 1) := by
  have length := fed.length
  have sum : (context.lengthLow + 8).toNat = 8 * (k + 1) := by
    rw [UInt32.toNat_add, length]
    have : (8 : UInt32).toNat = 8 := rfl
    rw [this, Nat.mod_eq_of_lt (by omega)]
    omega
  have noCarry : ¬ context.lengthLow + 8 < context.lengthLow := by
    rw [UInt32.lt_iff_toNat_lt, sum, length]
    omega
  have added : sha224_256AddLength (putByte context byte) 8 =
      { putByte context byte with lengthLow := context.lengthLow + 8, corrupted := none } := by
    simp only [sha224_256AddLength]
    exact if_neg noCarry
  simp only [sha256InputByte]
  rw [added]
  dsimp only
  split
  · exact ⟨fed.computed, rfl, sum⟩
  · exact ⟨fed.computed, rfl, sum⟩

theorem sha256InputLoop_fed {k : Nat} (fed : context.Fed k)
    (bytes : List UInt8) (small : k + bytes.length ≤ 2 ^ 28) :
    (sha256InputLoop context bytes).Fed (k + bytes.length) := by
  induction bytes generalizing context k with
  | nil => exact fed
  | cons byte bytes ih =>
    simp only [List.length_cons] at small ⊢
    have next := ih (sha256InputByte_fed fed (by omega) byte) (by omega)
    rw [Nat.add_assoc, Nat.add_comm 1] at next
    simpa [sha256InputLoop, fed.corrupted] using next

/-- `SHA256Input` accepts any short input on a usable context. -/
theorem sha256Input_fed {k : Nat} (fed : context.Fed k)
    (bytes : List UInt8) (small : k + bytes.length ≤ 2 ^ 28) :
    (sha256Input context bytes).1 = .shaSuccess ∧
      (sha256Input context bytes).2.Fed (k + bytes.length) := by
  simp only [sha256Input]
  split
  · rename_i empty
    exact ⟨rfl, by simpa [empty] using fed⟩
  · rw [if_neg (by simp [fed.computed]), fed.corrupted]
    exact ⟨rfl, sha256InputLoop_fed fed bytes small⟩

/-- The digest `mt_hash` writes for two digests. -/
def mtHashValue (left right : Digest) : Digest :=
  let ctx := (sha256Input (sha256Input (sha256Reset stackContext).2 left.toList).2 right.toList).2
  match sha256Result ctx with
  | .ok digest => digest
  | .error _ => left

/-- `mt_hash` of two non-null digests returns `MT_SUCCESS`. -/
theorem mtHash_some (left right : Digest) :
    mtHash (some left) (some right) = .ok (mtHashValue left right) := by
  have start := sha256Reset_fed stackContext
  obtain ⟨ok₁, fed₁⟩ := sha256Input_fed start left.toList (by simp [hashLength])
  obtain ⟨ok₂, fed₂⟩ := sha256Input_fed fed₁ right.toList (by simp [hashLength])
  have reset : (sha256Reset stackContext).1 = .shaSuccess := rfl
  simp only [mtHash, mtHashValue, reset, ok₁, ok₂, ne_eq, not_true_eq_false, if_false]
  simp only [sha256Result, fed₂.corrupted]

end Kvsev.Merkle
