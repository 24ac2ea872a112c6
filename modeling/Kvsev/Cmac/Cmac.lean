import Kvsev.Cmac.Aes128

/-!
# AES-CMAC over readable memory

`AES_CMAC` of `aes-cbc-cmac.c` reads its input through a pointer. The model
reads through a function from offsets to bytes that may trap, so one definition
says both what the code computes and which bytes it touches. It touches exactly
the offsets below `length`: the result depends on nothing else, and a single
unreadable byte among them stops it.
-/

namespace Kvsev.Cmac

open Memory

/-- `const_Rb` -/
def constRb : AesBlock := Vector.ofFn fun i : Fin 16 => if i = 15 then 0x87 else 0

/-- `const_Zero` -/
def constZero : AesBlock := Vector.replicate 16 0

/-- `leftshift_onebit`; the carry comes from the next byte. -/
def leftshiftOnebit (input : AesBlock) : AesBlock :=
  Vector.ofFn fun i : Fin 16 =>
    (input[i] <<< 1) ||| (if input.getD (i.val + 1) 0 &&& 0x80 ≠ 0 then 1 else 0)

/-- The doubling step that `generate_subkey` makes twice. -/
def doubleBlock (input : AesBlock) : AesBlock :=
  if input.get 0 &&& 0x80 = 0 then leftshiftOnebit input
  else xor128 (leftshiftOnebit input) constRb

/-- `generate_subkey` -/
def generateSubkey (key : AesBlock) : AesBlock × AesBlock :=
  let l := aes128Enc key constZero
  let k1 := doubleBlock l
  (k1, doubleBlock k1)

/-- Read `count` bytes from `off` on. -/
def readBytes (input : Nat → Exec UInt8) (off : Nat) : Nat → Exec (List UInt8)
  | 0 => return []
  | count + 1 => do
    let bytes ← readBytes input off count
    let byte ← input (off + count)
    return bytes ++ [byte]

/-- The sixteen bytes at `&input[off]`. -/
def readBlock (input : Nat → Exec UInt8) (off : Nat) : Exec AesBlock := do
  let bytes ← readBytes input off 16
  return Vector.ofFn fun j : Fin 16 => bytes.getD j.val 0

/-- `padding`, which reads `length` bytes at `&input[off]`. -/
def padding (input : Nat → Exec UInt8) (off length : Nat) : Exec AesBlock := do
  let bytes ← readBytes input off length
  return Vector.ofFn fun j : Fin 16 =>
    if j.val < length then bytes.getD j.val 0 else if j.val = length then 0x80 else 0

/-- The value of `X` after a number of iterations of the chaining loop. -/
def cbcChain (key : AesBlock) (input : Nat → Exec UInt8) : Nat → Exec AesBlock
  | 0 => return constZero
  | i + 1 => do
    let x ← cbcChain key input i
    let block ← readBlock input (16 * i)
    return aes128Enc key (xor128 x block)

/-- `M_last` of the last block at `off`. -/
def lastBlock (key : AesBlock) (input : Nat → Exec UInt8) (off length : Nat) (flag : Bool) :
    Exec AesBlock := do
  let (k1, k2) := generateSubkey key
  if flag then
    let block ← readBlock input off
    return xor128 block k1
  else
    let padded ← padding input off (length % 16)
    return xor128 padded k2

/-- `AES_CMAC`, with the sixteen bytes it writes to `mac`. -/
def aesCmac (key : AesBlock) (input : Nat → Exec UInt8) (length : Nat) : Exec AesBlock := do
  let n := (length + 15) / 16
  let flag : Bool := if n = 0 then false else length % 16 = 0
  let n := if n = 0 then 1 else n
  let last ← lastBlock key input (16 * (n - 1)) length flag
  let x ← cbcChain key input (n - 1)
  return aes128Enc key (xor128 x last)

/-! ## Which bytes are read -/

section

variable {input input' : Nat → Exec UInt8}

variable {off count : Nat}

theorem readBytes_congr (agree : ∀ i, off ≤ i → i < off + count → input i = input' i) :
    readBytes input off count = readBytes input' off count := by
  induction count with
  | zero => rfl
  | succ count ih =>
    have rest := ih fun i low high => agree i low (by omega)
    have here := agree (off + count) (by omega) (by omega)
    simp only [readBytes, rest, here]

theorem readBlock_congr (agree : ∀ i, off ≤ i → i < off + 16 → input i = input' i) :
    readBlock input off = readBlock input' off := by
  simp only [readBlock, readBytes_congr agree]

/-- The chaining loop reads the first `count` blocks. -/
theorem cbcChain_congr (key : AesBlock) (agree : ∀ i, i < 16 * count → input i = input' i) :
    cbcChain key input count = cbcChain key input' count := by
  induction count with
  | zero => rfl
  | succ count ih =>
    have rest := ih fun i high => agree i (by omega)
    have here : readBlock input (16 * count) = readBlock input' (16 * count) :=
      readBlock_congr fun i _ high => agree i (by omega)
    simp only [cbcChain, rest, here]

theorem lastBlock_congr (key : AesBlock) (off length : Nat) (flag : Bool)
    (agree : ∀ i, off ≤ i → i < off + (if flag then 16 else length % 16) → input i = input' i) :
    lastBlock key input off length flag = lastBlock key input' off length flag := by
  cases flag with
  | true =>
    have block : readBlock input off = readBlock input' off := readBlock_congr agree
    simp [lastBlock, block]
  | false =>
    have bytes : readBytes input off (length % 16) = readBytes input' off (length % 16) :=
      readBytes_congr agree
    simp [lastBlock, padding, bytes]

variable {length : Nat}

private theorem lastBlock_end (pos : 0 < length) :
    16 * ((length + 15) / 16 - 1) +
      (if decide (length % 16 = 0) = true then 16 else length % 16) = length := by
  by_cases full : length % 16 = 0
  · simp only [full, decide_true, if_true]
    omega
  · simp only [full, decide_false, Bool.false_eq_true, if_false]
    omega

/-- `AES_CMAC` depends only on the bytes below `length`. -/
theorem aesCmac_congr (key : AesBlock) (agree : ∀ i, i < length → input i = input' i) :
    aesCmac key input length = aesCmac key input' length := by
  rcases Nat.eq_zero_or_pos length with rfl | pos
  · rfl
  have blocks : (length + 15) / 16 ≠ 0 := by omega
  have chain : cbcChain key input ((length + 15) / 16 - 1) =
      cbcChain key input' ((length + 15) / 16 - 1) :=
    cbcChain_congr key fun i high => agree i (by omega)
  have last := lastBlock_congr key (16 * ((length + 15) / 16 - 1)) length
    (decide (length % 16 = 0)) fun i _ high => agree i (lastBlock_end pos ▸ high)
  simp only [aesCmac, blocks, if_false, chain, last]

/-- A byte that can be read. -/
def CanRead (input : Nat → Exec UInt8) (i : Nat) : Prop := ∃ byte, input i = .ok byte

theorem readBytes_ok_iff :
    (∃ bytes, readBytes input off count = .ok bytes) ↔
      ∀ i, off ≤ i → i < off + count → CanRead input i := by
  induction count with
  | zero => exact ⟨fun _ i low high => absurd high (by omega), fun _ => ⟨[], rfl⟩⟩
  | succ count ih =>
    rw [readBytes, Exec.exists_bind_eq_ok]
    constructor
    · rintro ⟨bytes, first, next⟩ i low high
      obtain ⟨byte, here, _⟩ := Exec.exists_bind_eq_ok.mp next
      by_cases last : i = off + count
      · exact ⟨byte, last ▸ here⟩
      · exact ih.mp ⟨bytes, first⟩ i low (by omega)
    · intro all
      obtain ⟨bytes, first⟩ := ih.mpr fun i low high => all i low (by omega)
      obtain ⟨byte, here⟩ := all (off + count) (by omega) (by omega)
      exact ⟨bytes, first, Exec.exists_bind_eq_ok.mpr ⟨byte, here, _, rfl⟩⟩

theorem readBlock_ok_iff :
    (∃ block, readBlock input off = .ok block) ↔
      ∀ i, off ≤ i → i < off + 16 → CanRead input i := by
  rw [← readBytes_ok_iff, readBlock, Exec.exists_bind_eq_ok]
  simp

theorem cbcChain_ok_iff (key : AesBlock) :
    (∃ x, cbcChain key input count = .ok x) ↔ ∀ i, i < 16 * count → CanRead input i := by
  induction count with
  | zero => exact ⟨fun _ i high => absurd high (by omega), fun _ => ⟨constZero, rfl⟩⟩
  | succ count ih =>
    rw [cbcChain, Exec.exists_bind_eq_ok]
    constructor
    · rintro ⟨x, first, next⟩ i high
      obtain ⟨block, here, _⟩ := Exec.exists_bind_eq_ok.mp next
      by_cases old : i < 16 * count
      · exact ih.mp ⟨x, first⟩ i old
      · exact readBlock_ok_iff.mp ⟨block, here⟩ i (by omega) (by omega)
    · intro all
      obtain ⟨x, first⟩ := ih.mpr fun i high => all i (by omega)
      obtain ⟨block, here⟩ := readBlock_ok_iff.mpr fun i (_ : 16 * count ≤ i) high =>
        all i (by omega)
      exact ⟨x, first, Exec.exists_bind_eq_ok.mpr ⟨block, here, _, rfl⟩⟩

theorem lastBlock_ok_iff (input : Nat → Exec UInt8) (key : AesBlock) (off length : Nat)
    (flag : Bool) :
    (∃ last, lastBlock key input off length flag = .ok last) ↔
      ∀ i, off ≤ i → i < off + (if flag then 16 else length % 16) → CanRead input i := by
  cases flag with
  | true =>
    simp only [lastBlock, if_true, ← readBlock_ok_iff, Exec.exists_bind_eq_ok]
    simp
  | false =>
    simp only [lastBlock, padding, Bool.false_eq_true, if_false, ← readBytes_ok_iff,
      Exec.exists_bind_eq_ok]
    simp [Exec.bind_eq_ok]

/-- `AES_CMAC` returns exactly when every byte below `length` can be read: it
reads each of them, and no other. -/
theorem aesCmac_ok_iff (key : AesBlock) :
    (∃ mac, aesCmac key input length = .ok mac) ↔ ∀ i, i < length → CanRead input i := by
  rcases Nat.eq_zero_or_pos length with rfl | pos
  · exact ⟨fun _ i high => absurd high (by omega), fun _ => ⟨_, rfl⟩⟩
  have blocks : (length + 15) / 16 ≠ 0 := by omega
  have last := lastBlock_ok_iff input key (16 * ((length + 15) / 16 - 1)) length
    (decide (length % 16 = 0))
  rw [lastBlock_end pos] at last
  simp only [aesCmac, blocks, if_false]
  rw [Exec.exists_bind_eq_ok]
  constructor
  · rintro ⟨mLast, ran, next⟩ i high
    obtain ⟨x, ranChain, _⟩ := Exec.exists_bind_eq_ok.mp next
    by_cases old : i < 16 * ((length + 15) / 16 - 1)
    · exact (cbcChain_ok_iff key).mp ⟨x, ranChain⟩ i old
    · exact last.mp ⟨mLast, ran⟩ i (Nat.le_of_not_lt old) high
  · intro all
    obtain ⟨mLast, ran⟩ := last.mpr fun i _ high => all i high
    obtain ⟨x, ranChain⟩ := (cbcChain_ok_iff key).mpr fun i
      (high : i < 16 * ((length + 15) / 16 - 1)) => all i (by omega)
    exact ⟨mLast, ran, Exec.exists_bind_eq_ok.mpr ⟨x, ranChain, _, rfl⟩⟩

end

/-! ## The code of a value -/

/-- The code of a value all of whose bytes can be read. -/
def cmacOf (key : AesBlock) (value : List UInt8) : AesBlock :=
  match aesCmac key (fun i => Exec.access value[i]?) value.length with
  | .ok mac => mac
  | .error _ => constZero

/-- On memory that starts with the value, `AES_CMAC` computes the value's code. -/
theorem aesCmac_value (key : AesBlock) {input : Nat → Exec UInt8} {value : List UInt8}
    (agree : ∀ i (h : i < value.length), input i = .ok value[i]) :
    aesCmac key input value.length = .ok (cmacOf key value) := by
  have same : aesCmac key input value.length =
      aesCmac key (fun i => Exec.access value[i]?) value.length := by
    refine aesCmac_congr key fun i inRange => ?_
    rw [agree i inRange, List.getElem?_eq_getElem inRange, Exec.access_some]
  obtain ⟨mac, ran⟩ := (aesCmac_ok_iff key).mpr fun i (inRange : i < value.length) =>
    ⟨value[i], agree i inRange⟩
  rw [ran, cmacOf, ← same, ran]

end Kvsev.Cmac
