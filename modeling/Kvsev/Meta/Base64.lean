import Kvsev.Connection.Line

/-!
# Keys in base64

`base64_decode` skips all bytes outside the alphabet and does not look at the bits that the
padding leaves over, so many texts stand for one key. `base64_encode` gives one of them, and
decoding is its left inverse.
-/

namespace Kvsev.Meta

open Connection

/-- `base64_table` -/
def base64Table : List UInt8 :=
  text "ABCDEFGHIJKLMNOPQRSTUVWXYZabcdefghijklmnopqrstuvwxyz0123456789+/"

def base64Char (n : Nat) : UInt8 := base64Table.getD n 0

/-- `base64_encode`, without the zero behind the text. -/
def base64Encode : List UInt8 → List UInt8
  | a :: b :: c :: rest =>
    base64Char (a.toNat / 4) :: base64Char (a.toNat % 4 * 16 + b.toNat / 16) ::
      base64Char (b.toNat % 16 * 4 + c.toNat / 64) :: base64Char (c.toNat % 64) ::
      base64Encode rest
  | [a, b] =>
    [base64Char (a.toNat / 4), base64Char (a.toNat % 4 * 16 + b.toNat / 16),
      base64Char (b.toNat % 16 * 4), 61]
  | [a] => [base64Char (a.toNat / 4), base64Char (a.toNat % 4 * 16), 61, 61]
  | [] => []

/-- `dtable`; a byte outside the alphabet has no value, and `=` has the value zero. -/
def dtable (c : UInt8) : Option Nat :=
  if c = 61 then some 0
  else if 65 ≤ c ∧ c ≤ 90 then some (c.toNat - 65)
  else if 97 ≤ c ∧ c ≤ 122 then some (c.toNat - 71)
  else if 48 ≤ c ∧ c ≤ 57 then some (c.toNat + 4)
  else if c = 43 then some 62
  else if c = 47 then some 63
  else none

/-- The three bytes of a block. -/
def decodeBlock (a b c d : UInt8) : List UInt8 :=
  let block (c : UInt8) : Nat := (dtable c).getD 0
  [UInt8.ofNat (block a * 4 + block b / 16), UInt8.ofNat (block b * 16 + block c / 4),
    UInt8.ofNat (block c * 64 + block d)]

/-- The second loop of `base64_decode`, over the bytes of the alphabet. It ends with the first
block that has padding. -/
def decodeBlocks : List UInt8 → Option (List UInt8)
  | a :: b :: c :: d :: rest =>
    let pad := [a, b, c, d].count 61
    if pad = 0 then (decodeBlocks rest).map (decodeBlock a b c d ++ ·)
    else if pad ≤ 2 then some ((decodeBlock a b c d).take (3 - pad))
    else none
  | _ => some []

/-- `base64_decode` into a buffer as long as the text; where it fails nothing is decoded. -/
def base64Decode (src : List UInt8) : List UInt8 :=
  let known := src.filter fun c => (dtable c).isSome
  if known.length = 0 ∨ known.length % 4 ≠ 0 then [] else (decodeBlocks known).getD []

/-! ## Round trips -/

theorem dtable_base64Char {n : Nat} (lt : n < 64) : dtable (base64Char n) = some n := by
  have all : ∀ n : Fin 64, dtable (base64Char n) = some n.val := by decide +kernel
  exact all ⟨n, lt⟩

theorem base64Char_ne_pad {n : Nat} (lt : n < 64) : base64Char n ≠ 61 := by
  have all : ∀ n : Fin 64, base64Char n ≠ 61 := by decide +kernel
  exact all ⟨n, lt⟩

section

variable (a b c : UInt8)

theorem decodeBlock_full : decodeBlock (base64Char (a.toNat / 4))
    (base64Char (a.toNat % 4 * 16 + b.toNat / 16)) (base64Char (b.toNat % 16 * 4 + c.toNat / 64))
    (base64Char (c.toNat % 64)) = [a, b, c] := by
  have boundA := a.toNat_lt
  have boundB := b.toNat_lt
  have boundC := c.toNat_lt
  simp (disch := omega) only [decodeBlock, dtable_base64Char, Option.getD_some, List.cons.injEq,
    and_true, ← UInt8.toNat_inj, UInt8.toNat_ofNat']
  omega

theorem decodeBlock_two : (decodeBlock (base64Char (a.toNat / 4))
    (base64Char (a.toNat % 4 * 16 + b.toNat / 16)) (base64Char (b.toNat % 16 * 4)) 61).take 2 =
      [a, b] := by
  have boundA := a.toNat_lt
  have boundB := b.toNat_lt
  simp (disch := omega) only [decodeBlock, dtable_base64Char, Option.getD_some,
    List.take_succ_cons, List.take_zero, List.cons.injEq, and_true, ← UInt8.toNat_inj,
    UInt8.toNat_ofNat']
  omega

theorem decodeBlock_one : (decodeBlock (base64Char (a.toNat / 4))
    (base64Char (a.toNat % 4 * 16)) 61 61).take 1 = [a] := by
  have boundA := a.toNat_lt
  simp (disch := omega) only [decodeBlock, dtable_base64Char, Option.getD_some,
    List.take_succ_cons, List.take_zero, List.cons.injEq, and_true, ← UInt8.toNat_inj,
    UInt8.toNat_ofNat']
  omega

end

theorem decodeBlocks_encode (raw : List UInt8) : decodeBlocks (base64Encode raw) = some raw := by
  have char (n : Nat) (lt : n < 64) : (base64Char n == 61) = false :=
    beq_eq_false_iff_ne.mpr (base64Char_ne_pad lt)
  fun_induction base64Encode raw with
  | case1 a b c rest ih =>
    have boundA := a.toNat_lt
    have boundB := b.toNat_lt
    have boundC := c.toNat_lt
    rw [decodeBlocks, decodeBlock_full, ih]
    simp only [List.count_cons, char (a.toNat / 4) (by omega),
      char (a.toNat % 4 * 16 + b.toNat / 16) (by omega),
      char (b.toNat % 16 * 4 + c.toNat / 64) (by omega), char (c.toNat % 64) (by omega)]
    rfl
  | case2 a b =>
    have boundA := a.toNat_lt
    have boundB := b.toNat_lt
    rw [decodeBlocks]
    simp only [List.count_cons, char (a.toNat / 4) (by omega),
      char (a.toNat % 4 * 16 + b.toNat / 16) (by omega), char (b.toNat % 16 * 4) (by omega)]
    exact congrArg some (decodeBlock_two a b)
  | case3 a =>
    have boundA := a.toNat_lt
    rw [decodeBlocks]
    simp only [List.count_cons, char (a.toNat / 4) (by omega), char (a.toNat % 4 * 16) (by omega)]
    exact congrArg some (decodeBlock_one a)
  | case4 => rfl

theorem isSome_dtable_of_mem_encode {raw : List UInt8} {c : UInt8} (mem : c ∈ base64Encode raw) :
    (dtable c).isSome = true := by
  have char (n : Nat) (lt : n < 64) : (dtable (base64Char n)).isSome = true := by
    rw [dtable_base64Char lt]
    rfl
  have pad : (dtable 61).isSome = true := by decide
  fun_induction base64Encode raw with
  | case1 a b c' rest ih =>
    have boundA := a.toNat_lt
    have boundB := b.toNat_lt
    have boundC := c'.toNat_lt
    simp only [List.mem_cons] at mem
    rcases mem with rfl | rfl | rfl | rfl | mem
    · exact char _ (by omega)
    · exact char _ (by omega)
    · exact char _ (by omega)
    · exact char _ (by omega)
    · exact ih mem
  | case2 a b =>
    have boundA := a.toNat_lt
    have boundB := b.toNat_lt
    simp only [List.mem_cons, List.not_mem_nil, or_false] at mem
    rcases mem with rfl | rfl | rfl | rfl
    · exact char _ (by omega)
    · exact char _ (by omega)
    · exact char _ (by omega)
    · exact pad
  | case3 a =>
    have boundA := a.toNat_lt
    simp only [List.mem_cons, List.not_mem_nil, or_false] at mem
    rcases mem with rfl | rfl | rfl | rfl
    · exact char _ (by omega)
    · exact char _ (by omega)
    · exact pad
    · exact pad
  | case4 => cases mem

theorem length_base64Encode (raw : List UInt8) :
    (base64Encode raw).length = (raw.length + 2) / 3 * 4 := by
  fun_induction base64Encode raw with
  | case1 a b c rest ih =>
    simp only [List.length_cons, ih]
    omega
  | case2 a b | case3 a => simp
  | case4 => rfl

/-- Decoding takes back the encoding. -/
theorem base64Decode_encode {raw : List UInt8} (ne : raw ≠ []) :
    base64Decode (base64Encode raw) = raw := by
  have known : (base64Encode raw).filter (fun c => (dtable c).isSome) = base64Encode raw :=
    List.filter_eq_self.mpr fun _ mem => isSome_dtable_of_mem_encode mem
  have positive := List.length_pos_iff.mpr ne
  have length := length_base64Encode raw
  rw [base64Decode, known, if_neg (by omega), decodeBlocks_encode]
  rfl

/-- Every key comes back, from a text of known length. -/
theorem base64_round_trip (raw : List UInt8) : base64Decode (base64Encode raw) = raw ∧
    (base64Encode raw).length = (raw.length + 2) / 3 * 4 := by
  refine ⟨?_, length_base64Encode raw⟩
  cases raw with
  | nil => rfl
  | cons b raw => exact base64Decode_encode (List.cons_ne_nil b raw)

/-- The texts that are given back as they were sent. -/
theorem encode_decode_iff {key : List UInt8} (decodes : base64Decode key ≠ []) :
    base64Encode (base64Decode key) = key ↔ ∃ raw, raw ≠ [] ∧ key = base64Encode raw := by
  constructor
  · intro same
    exact ⟨base64Decode key, decodes, same.symm⟩
  · rintro ⟨raw, ne, rfl⟩
    rw [base64Decode_encode ne]

/-! ## Lengths -/

theorem length_decodeBlocks {known raw : List UInt8} (ran : decodeBlocks known = some raw) :
    raw.length * 4 ≤ known.length * 3 := by
  fun_induction decodeBlocks known generalizing raw with
  | case1 a b c d rest pad unpadded =>
    rename_i ih
    obtain ⟨more, next, rfl⟩ := Option.map_eq_some_iff.mp ran
    have := ih next
    simp only [List.length_append, List.length_cons, decodeBlock, List.length_nil]
    omega
  | case2 a b c d rest pad padded =>
    cases ran
    simp only [List.length_take, decodeBlock, List.length_cons, List.length_nil]
    omega
  | case3 => cases ran
  | case4 => cases ran; exact Nat.zero_le _

/-- A key gets shorter. -/
theorem length_base64Decode (src : List UInt8) :
    (base64Decode src).length * 4 ≤ src.length * 3 := by
  rw [base64Decode]
  split
  · exact Nat.zero_le _
  · cases ran : decodeBlocks (src.filter fun c => (dtable c).isSome) with
    | none => exact Nat.zero_le _
    | some raw =>
      exact (length_decodeBlocks ran).trans (Nat.mul_le_mul_right 3 (List.length_filter_le _ _))

end Kvsev.Meta
