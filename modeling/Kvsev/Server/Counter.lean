import Kvsev.Server.Concat
import Kvsev.Transition.Run
import Mathlib.Data.Nat.Digits.Defs

/-!
# Increment and decrement, byte by byte

`do_add_delta` hands the start of the value to `safe_strtoull`, which reads on in the
memory of the item as a C string: there is no zero behind the value. The number ends
at the space or the carriage return behind it. But for a number of 2^63 and more,
`safe_strtoull` looks for a minus sign up to the next zero, in whatever the
memory of the item and of the chunks behind it contains.

The new number is written over the old one and padded with blanks if it is not longer
and nobody else holds the item, and into a new item otherwise.
-/

namespace Kvsev.Server.Counter

open Memory Transition Concat

/-- `strchr`, on the memory from a pointer on. -/
def strchr (c : UInt8) : List UInt8 → Exec Bool
  | [] => throw .invalidAccess
  | x :: xs => if x = c then return true else if x = 0 then return false else strchr c xs

/-- `safe_strtoull`, on the memory from a pointer on. -/
def safeStrtoull (str : List UInt8) : Exec (Option Nat) :=
  let (negative, digits, rest) := scanNumber str
  let value := digitsValue digits
  match rest with
  | [] => throw .invalidAccess
  | next :: _ =>
    if digits = [] ∨ 2 ^ 64 ≤ value then return none
    else
      let ull := if negative then u64 (2 ^ 64 - value) else value
      if isSpace next ∨ next = 0 then
        if 2 ^ 63 ≤ ull then do
          if ← strchr 45 str then return none else return some ull
        else return some ull
      else return none

/-- The replies of `process_arithmetic_command`. -/
inductive Reply where
  | number (text : List UInt8)
  | invalidDelta
  | nonNumeric
  | outOfMemory
  deriving DecidableEq

/-- A command, with the number of others that hold the item, the memory behind its slab
chunk and the outcomes of allocations. -/
structure Command where
  incr : Bool
  delta : UInt64
  holders : Nat
  behind : List UInt8
  pull : Pull

/-- Replace the value in place. -/
def replaceInPlace (data : Nat) (it : Stored) (buf : List UInt8) : Exec (Reply × Stored) := do
  let mem ← it.mem.memcpy data (.ofList buf) 0 buf.length
  let mem ← mem.memset (data + buf.length) 32 (it.nbytes - buf.length - 2)
  return (.number buf, { it with mem })

/-- Put the value into a new item. -/
def replaceItem (slabs : Slabs) (it : Stored) (buf : List UInt8) (pull : Pull) :
    Exec (Reply × Stored) :=
  match Concat.doItemAlloc slabs it.key it.flags it.exptime (buf.length + 2) pull with
  | (none, _) => return (.outOfMemory, it)
  | (some new, _) => do
    let data := new.itemData slabs
    let mem ← new.mem.memcpy data (.ofList buf) 0 buf.length
    let mem ← mem.memcpy (data + buf.length) (.ofList crlf) 0 2
    return (.number buf, { new with mem })

/-- `do_add_delta`, for an item that was found. -/
def doAddDelta (slabs : Slabs) (it : Stored) (cmd : Command) (delta : Nat) :
    Exec (Reply × Stored) :=
  if it.nbytes ≤ 2 ∨ it.chunks.isSome then return (.nonNumeric, it)
  else do
    let data := it.itemData slabs
    match ← safeStrtoull (it.mem.slice data (it.mem.size - data) ++ cmd.behind) with
    | none => return (.nonNumeric, it)
    | some value =>
      let buf := itoaU64 (addTo cmd.incr delta value)
      -- the table and this function hold the item, too
      let refcount := cmd.holders + 2
      if buf.length + 2 ≤ it.nbytes ∧ refcount = 2 then replaceInPlace data it buf
      else replaceItem slabs it buf cmd.pull

/-- `process_arithmetic_command` for an existing item. The word with the delta ends with a
zero. -/
def processArithmeticCommand (slabs : Slabs) (it : Stored) (cmd : Command) :
    Exec (Reply × Stored) := do
  match ← safeStrtoull (itoaU64 cmd.delta.toNat ++ [0]) with
  | none => return (.invalidDelta, it)
  | some delta => doAddDelta slabs it cmd delta

/-! ## Numbers in memory -/

/-- The digits of a number, perhaps with zeroes before it. -/
structure IsDecimal (digits : List UInt8) (n : Nat) : Prop where
  some : digits ≠ []
  digit : ∀ d ∈ digits, isDigit d
  value : digitsValue digits = n

theorem isDecimal_itoaU64 (n : Nat) : IsDecimal (itoaU64 n) n := by
  have bounds : ∀ c ∈ Nat.toDigits 10 n, 48 ≤ c.toNat ∧ c.toNat ≤ 57 := by
    intro c mem
    have digit := Nat.isDigit_of_mem_toDigits (by decide) (by decide) mem
    simp only [Char.isDigit, Bool.and_eq_true, decide_eq_true_eq] at digit
    exact digit
  have toNat : ∀ c ∈ Nat.toDigits 10 n, c.toNat.toUInt8.toNat = c.toNat := by
    intro c mem
    have := bounds c mem
    simp only [Nat.toUInt8, UInt8.toNat_ofNat']
    omega
  refine ⟨by simp [itoaU64, Nat.toDigits_ne_nil], ?_, ?_⟩
  · intro d mem
    obtain ⟨c, inside, rfl⟩ := List.mem_map.mp mem
    have := bounds c inside
    simp only [isDigit, decide_eq_true_eq, UInt8.le_iff_toNat_le, toNat c inside]
    exact this
  · have same : ∀ (cs : List Char) (acc : Nat), (∀ c ∈ cs, c.toNat.toUInt8.toNat = c.toNat) →
        (cs.map fun c => c.toNat.toUInt8).foldl (fun acc d => acc * 10 + (d.toNat - 48)) acc =
          Nat.ofDigitChars 10 cs acc := by
      intro cs
      induction cs with
      | nil => exact fun acc _ => Nat.ofDigitChars_nil.symm
      | cons c cs ih =>
        intro acc each
        rw [List.map_cons, List.foldl_cons, ih _ fun c mem => each c (List.mem_cons_of_mem _ mem),
          Nat.ofDigitChars_cons, each c List.mem_cons_self, Nat.mul_comm]
        rfl
    rw [digitsValue, itoaU64, same _ 0 toNat, Nat.ofDigitChars_ten_toDigits]

theorem IsDecimal.ne {digits : List UInt8} {n : Nat} (dec : IsDecimal digits n) {d c : UInt8}
    (mem : d ∈ digits) (other : isDigit c = false) : d ≠ c := by
  rintro rfl
  rw [dec.digit d mem] at other
  cases other

/-- The search goes on behind bytes that are neither a zero nor the character. -/
theorem strchr_append {c : UInt8} {front : List UInt8} (skipped : ∀ x ∈ front, x ≠ c ∧ x ≠ 0)
    (rest : List UInt8) : strchr c (front ++ rest) = strchr c rest := by
  induction front with
  | nil => rfl
  | cons x front ih =>
    obtain ⟨other, nonzero⟩ := skipped x List.mem_cons_self
    rw [List.cons_append, strchr, if_neg other, if_neg nonzero]
    exact ih fun y mem => skipped y (List.mem_cons_of_mem x mem)

theorem safeStrtoull_decimal {digits : List UInt8} {n : Nat} (dec : IsDecimal digits n)
    (range : n < 2 ^ 64) {next : UInt8} (ends : isSpace next ∨ next = 0) (rest : List UInt8) :
    safeStrtoull (digits ++ next :: rest) =
      if 2 ^ 63 ≤ n then do
        if ← strchr 45 (next :: rest) then return none else return some n
      else return some n := by
  have notDigit : isDigit next = false := by
    obtain space | rfl := ends
    · simp only [isSpace, decide_eq_true_eq, UInt8.le_iff_toNat_le] at space
      simp only [isDigit, decide_eq_false_iff_not, UInt8.le_iff_toNat_le]
      obtain rfl | between := space
      · decide
      · change ¬(48 ≤ next.toNat ∧ next.toNat ≤ 57)
        change 9 ≤ next.toNat ∧ next.toNat ≤ 13 at between
        omega
    · rfl
  have scanned : scanNumber (digits ++ next :: rest) = (false, digits, next :: rest) :=
    scanNumber_digits dec.some dec.digit (by simpa using notDigit)
  have searched : strchr 45 (digits ++ next :: rest) = strchr 45 (next :: rest) :=
    strchr_append (fun x mem => ⟨dec.ne mem rfl, dec.ne mem rfl⟩) _
  have small : ¬2 ^ 64 ≤ n := by omega
  rw [safeStrtoull]
  simp only [scanned, dec.some, dec.value, searched, ends, small, or_self, if_true, if_false,
    Bool.false_eq_true]

/-! ## Items that hold a number -/

/-- The value of the item is a number, padded with blanks. All its bytes are in the item,
and nothing else is in the bytes that a reader gets. -/
structure Counts (slabs : Slabs) (it : Stored) (n : Nat) : Prop where
  plain : it.chunks = none
  short : it.key.length ≤ 250
  inside : it.itemData slabs + it.nbytes ≤ it.mem.size
  range : n < 2 ^ 64
  text : ∃ digits blanks, IsDecimal digits n ∧
    it.mem.slice (it.itemData slabs) it.nbytes = digits ++ List.replicate blanks 32 ++ crlf

/-- What the memory holds behind the value. -/
def leftover (slabs : Slabs) (it : Stored) (behind : List UInt8) : List UInt8 :=
  let stop := it.itemData slabs + it.nbytes
  it.mem.slice stop (it.mem.size - stop) ++ behind

variable {slabs : Slabs} {it new : Stored} {n : Nat} {buf : List UInt8} {pull : Pull}

/-- The parser finds the number, unless it is large and a minus sign comes before the
next zero. -/
theorem Counts.parse (counts : Counts slabs it n) (behind : List UInt8) :
    safeStrtoull (it.mem.slice (it.itemData slabs) (it.mem.size - it.itemData slabs) ++ behind) =
      if 2 ^ 63 ≤ n then do
        if ← strchr 45 (leftover slabs it behind) then return none else return some n
      else return some n := by
  obtain ⟨digits, blanks, dec, shown⟩ := counts.text
  have inside := counts.inside
  have sizes : it.mem.size - it.itemData slabs =
      it.nbytes + (it.mem.size - (it.itemData slabs + it.nbytes)) := by omega
  have memory : it.mem.slice (it.itemData slabs) (it.mem.size - it.itemData slabs) ++ behind =
      digits ++ (List.replicate blanks 32 ++ crlf ++ leftover slabs it behind) := by
    rw [sizes, Block.slice_add, shown, leftover]
    simp only [List.append_assoc]
  have skipped : ∀ x ∈ List.replicate blanks (32 : UInt8) ++ crlf, x ≠ 45 ∧ x ≠ 0 := by
    intro x mem
    simp only [crlf, List.mem_append, List.mem_replicate, List.mem_cons, List.not_mem_nil,
      or_false] at mem
    obtain ⟨-, rfl⟩ | rfl | rfl := mem <;> decide
  have searched := strchr_append skipped (leftover slabs it behind)
  obtain ⟨next, rest, ends, split⟩ : ∃ next rest, (isSpace next ∨ next = 0) ∧
      List.replicate blanks (32 : UInt8) ++ crlf ++ leftover slabs it behind = next :: rest := by
    cases blanks with
    | zero => exact ⟨13, _, .inl rfl, rfl⟩
    | succ k => exact ⟨32, _, .inl rfl, rfl⟩
  rw [split] at searched memory
  rw [memory, safeStrtoull_decimal dec counts.range ends rest, searched]

theorem length_itoaU64 {n : Nat} (range : n < 2 ^ 64) : (itoaU64 n).length ≤ 20 := by
  rw [itoaU64, List.length_map]
  exact Nat.toDigits_length 10 n 20 (by decide) (Nat.lt_trans range (by decide))

/-- The counter that the commands are to implement. -/
def reference (cmd : Command) (n : Nat) : Nat :=
  if cmd.incr then (n + cmd.delta.toNat) % 2 ^ 64 else n - cmd.delta.toNat

/-- An item beside the reference counter, with the replies that were given and those that
were due. A command without memory for its result leaves the counter alone. -/
structure Run where
  it : Stored
  count : Nat
  replies : List Reply
  due : List Reply

def step (slabs : Slabs) (s : Run) (cmd : Command) : Exec Run := do
  let (reply, it) ← processArithmeticCommand slabs s.it cmd
  let replies := reply :: s.replies
  if reply = .outOfMemory then return { s with it, replies, due := .outOfMemory :: s.due }
  else
    let count := reference cmd s.count
    return ⟨it, count, replies, .number (itoaU64 count) :: s.due⟩

/-- The item holds the number of the reference counter, and so did the replies. -/
structure Run.Agrees (slabs : Slabs) (s : Run) : Prop where
  counts : Counts slabs s.it s.count
  replies : s.replies = s.due

end Kvsev.Server.Counter
