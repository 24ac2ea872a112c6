import Kvsev.Memory.Block
import Mathlib.Algebra.Ring.Nat

/-!
# AES-128 encryption

The encryption direction of `aes_enc_dec` in `TI_aes_128.c`, which is the only
one the message authentication code uses. The key schedule runs along with the
rounds and overwrites the key in place, so a round works on the pair of the
state and the current round key.
-/

namespace Kvsev.Cmac

/-- Sixteen bytes: a state, a round key or a message block. -/
abbrev AesBlock := Vector UInt8 16

/-- The forward S-box, row by row as in the source. -/
def sbox : Vector (Vector UInt8 16) 16 := #v[
  #v[0x63, 0x7c, 0x77, 0x7b, 0xf2, 0x6b, 0x6f, 0xc5,
    0x30, 0x01, 0x67, 0x2b, 0xfe, 0xd7, 0xab, 0x76],
  #v[0xca, 0x82, 0xc9, 0x7d, 0xfa, 0x59, 0x47, 0xf0,
    0xad, 0xd4, 0xa2, 0xaf, 0x9c, 0xa4, 0x72, 0xc0],
  #v[0xb7, 0xfd, 0x93, 0x26, 0x36, 0x3f, 0xf7, 0xcc,
    0x34, 0xa5, 0xe5, 0xf1, 0x71, 0xd8, 0x31, 0x15],
  #v[0x04, 0xc7, 0x23, 0xc3, 0x18, 0x96, 0x05, 0x9a,
    0x07, 0x12, 0x80, 0xe2, 0xeb, 0x27, 0xb2, 0x75],
  #v[0x09, 0x83, 0x2c, 0x1a, 0x1b, 0x6e, 0x5a, 0xa0,
    0x52, 0x3b, 0xd6, 0xb3, 0x29, 0xe3, 0x2f, 0x84],
  #v[0x53, 0xd1, 0x00, 0xed, 0x20, 0xfc, 0xb1, 0x5b,
    0x6a, 0xcb, 0xbe, 0x39, 0x4a, 0x4c, 0x58, 0xcf],
  #v[0xd0, 0xef, 0xaa, 0xfb, 0x43, 0x4d, 0x33, 0x85,
    0x45, 0xf9, 0x02, 0x7f, 0x50, 0x3c, 0x9f, 0xa8],
  #v[0x51, 0xa3, 0x40, 0x8f, 0x92, 0x9d, 0x38, 0xf5,
    0xbc, 0xb6, 0xda, 0x21, 0x10, 0xff, 0xf3, 0xd2],
  #v[0xcd, 0x0c, 0x13, 0xec, 0x5f, 0x97, 0x44, 0x17,
    0xc4, 0xa7, 0x7e, 0x3d, 0x64, 0x5d, 0x19, 0x73],
  #v[0x60, 0x81, 0x4f, 0xdc, 0x22, 0x2a, 0x90, 0x88,
    0x46, 0xee, 0xb8, 0x14, 0xde, 0x5e, 0x0b, 0xdb],
  #v[0xe0, 0x32, 0x3a, 0x0a, 0x49, 0x06, 0x24, 0x5c,
    0xc2, 0xd3, 0xac, 0x62, 0x91, 0x95, 0xe4, 0x79],
  #v[0xe7, 0xc8, 0x37, 0x6d, 0x8d, 0xd5, 0x4e, 0xa9,
    0x6c, 0x56, 0xf4, 0xea, 0x65, 0x7a, 0xae, 0x08],
  #v[0xba, 0x78, 0x25, 0x2e, 0x1c, 0xa6, 0xb4, 0xc6,
    0xe8, 0xdd, 0x74, 0x1f, 0x4b, 0xbd, 0x8b, 0x8a],
  #v[0x70, 0x3e, 0xb5, 0x66, 0x48, 0x03, 0xf6, 0x0e,
    0x61, 0x35, 0x57, 0xb9, 0x86, 0xc1, 0x1d, 0x9e],
  #v[0xe1, 0xf8, 0x98, 0x11, 0x69, 0xd9, 0x8e, 0x94,
    0x9b, 0x1e, 0x87, 0xe9, 0xce, 0x55, 0x28, 0xdf],
  #v[0x8c, 0xa1, 0x89, 0x0d, 0xbf, 0xe6, 0x42, 0x68,
    0x41, 0x99, 0x2d, 0x0f, 0xb0, 0x54, 0xbb, 0x16]]

/-- `Rcon` -/
def rcon : Vector UInt8 10 := #v[0x01, 0x02, 0x04, 0x08, 0x10, 0x20, 0x40, 0x80, 0x1b, 0x36]

/-- `galois_mul2` -/
def galoisMul2 (value : UInt8) : UInt8 :=
  if value >>> 7 ≠ 0 then (value <<< 1) ^^^ 0x1b else value <<< 1

/-- `xor_128` -/
def xor128 (a b : AesBlock) : AesBlock := Vector.zipWith (· ^^^ ·) a b

/-- The S-box lookup of one byte. -/
def subByte (value : UInt8) : UInt8 :=
  (sbox.getD (value.toNat / 16) (Vector.replicate 16 0)).getD (value.toNat % 16) 0

/-- The row rotations, read off the assignments through `buf1` and `buf2`. -/
def shiftRows (s : AesBlock) : AesBlock := #v[
  s[0], s[5], s[10], s[15], s[4], s[9], s[14], s[3],
  s[8], s[13], s[2], s[7], s[12], s[1], s[6], s[11]]

/-- The four bytes of one column after `mixcol`. -/
def mixColumn (a b c d : UInt8) : Vector UInt8 4 :=
  let buf1 := a ^^^ b ^^^ c ^^^ d
  #v[a ^^^ galoisMul2 (a ^^^ b) ^^^ buf1, b ^^^ galoisMul2 (b ^^^ c) ^^^ buf1,
    c ^^^ galoisMul2 (c ^^^ d) ^^^ buf1, d ^^^ galoisMul2 (d ^^^ a) ^^^ buf1]

def mixColumns (s : AesBlock) : AesBlock :=
  let c0 := mixColumn s[0] s[1] s[2] s[3]
  let c1 := mixColumn s[4] s[5] s[6] s[7]
  let c2 := mixColumn s[8] s[9] s[10] s[11]
  let c3 := mixColumn s[12] s[13] s[14] s[15]
  c0 ++ c1 ++ c2 ++ c3

/-- The key schedule of one round. -/
def nextKey (key : AesBlock) (round : Nat) : AesBlock :=
  let key := key.set 0 (subByte key[13] ^^^ key[0] ^^^ rcon.getD round 0)
  let key := key.set 1 (subByte key[14] ^^^ key[1])
  let key := key.set 2 (subByte key[15] ^^^ key[2])
  let key := key.set 3 (subByte key[12] ^^^ key[3])
  (List.range' 4 12).foldl (fun key i =>
    key.setIfInBounds i (key.getD i 0 ^^^ key.getD (i - 4) 0)) key

/-- One round; the last one mixes no columns. -/
def aesRound (s : AesBlock × AesBlock) (round : Nat) : AesBlock × AesBlock :=
  let (state, key) := s
  let state := shiftRows ((xor128 state key).map subByte)
  let state := if round < 9 then mixColumns state else state
  (state, nextKey key round)

/-- `aes_enc_dec` with `dir` zero. -/
def aesEncDec (state key : AesBlock) : AesBlock :=
  let (state, key) := (List.range 10).foldl aesRound (state, key)
  xor128 state key

/-- `AES_128_ENC` -/
def aes128Enc (key msg : AesBlock) : AesBlock := aesEncDec msg key

end Kvsev.Cmac
