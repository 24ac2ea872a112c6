import Kvsev.Memory.Bytes
import Kvsev.Memory.Copies

/-!
# Writing a block from its start

A writer is a block and the position behind what was written. `Writes f text` says all that
is needed of a function that writes: it appends the text, and it succeeds while there is one
cell left behind it, which some functions need for a zero that does not count.
-/

namespace Memory

variable {α : Type}

/-- A block that is written from its start. -/
structure Writer (α : Type) where
  buf : Block α
  pos : Nat

namespace Writer

/-- `*p = c; p++` -/
def char (c : α) (w : Writer α) : Exec (Writer α) := do
  let buf ← w.buf.set w.pos c
  return ⟨buf, w.pos + 1⟩

/-- `memcpy` from elsewhere. -/
def copy (src : List α) (w : Writer α) : Exec (Writer α) :=
  match src with
  | [] => return w
  | c :: src => do
    let w ← w.char c
    w.copy src

/-- `*p = c` -/
def mark (c : α) (w : Writer α) : Exec (Writer α) := do
  let buf ← w.buf.set w.pos c
  return ⟨buf, w.pos⟩

/-- The block has this size and begins with these cells, behind which is the position. -/
structure Holds (w : Writer α) (size : Nat) (bytes : List α) : Prop where
  size : w.buf.size = size
  pos : w.pos = bytes.length
  cells : w.buf.slice 0 bytes.length = bytes

/-- A function that appends a text. -/
def Writes (f : Writer α → Exec (Writer α)) (text : List α) : Prop :=
  ∀ w size bytes, Holds w size bytes → bytes.length + text.length < size →
    ∃ w', f w = .ok w' ∧ Holds w' size (bytes ++ text)

variable {w : Writer α} {size : Nat} {bytes : List α}

theorem Holds.empty (size : Nat) (cell : Nat → α) : Holds ⟨⟨size, cell⟩, 0⟩ size [] :=
  ⟨rfl, rfl, rfl⟩

/-- What was written can be read. -/
theorem Holds.get {i : Nat} {c : α} (holds : Holds w size bytes) (fits : bytes.length ≤ size)
    (here : bytes[i]? = some c) : w.buf.get i = .ok c := by
  obtain ⟨lt, rfl⟩ := List.getElem?_eq_some_iff.mp here
  have cell : bytes[i]? = some (w.buf.cell (0 + i)) := by
    conv_lhs => rw [← holds.cells]
    simp [Block.slice, lt]
  rw [Block.get_of_lt (by rw [holds.size]; omega)]
  rw [List.getElem?_eq_getElem lt, Nat.zero_add] at cell
  rw [Option.some.inj cell]

/-- The end of what was written. -/
theorem Holds.slice {front back : List α} (holds : Holds w size (front ++ back)) :
    w.buf.slice front.length back.length = back := by
  have parts := (Block.slice_of_append holds.cells).2
  rwa [Nat.zero_add] at parts

theorem slice_put_of_le {b : Block α} {i n : Nat} (le : n ≤ i) (c : α) :
    (b.put i c).slice 0 n = b.slice 0 n :=
  Block.slice_congr fun j _ lt => Function.update_of_ne (by omega) ..

namespace Writes

variable {f g : Writer α → Exec (Writer α)} {text more : List α}

theorem nothing : Writes (fun w : Writer α => .ok w) [] :=
  fun w _ bytes holds _ => ⟨w, rfl, by rwa [List.append_nil]⟩

theorem of_eq (written : Writes f text) (run : ∀ w, g w = f w) : Writes g text := by
  obtain rfl : g = f := funext run
  exact written

theorem char (c : α) : Writes (Writer.char c) [c] := by
  intro w size bytes holds room
  have lt : w.pos < w.buf.size := by
    rw [holds.pos, holds.size]
    exact Nat.lt_of_le_of_lt (Nat.le_add_right ..) room
  refine ⟨⟨w.buf.put w.pos c, w.pos + 1⟩, ?_, holds.size, ?_, ?_⟩
  · rw [Writer.char, Block.set_of_lt lt]
    rfl
  · simp [holds.pos]
  · rw [List.length_append, Block.slice_add, holds.pos, slice_put_of_le (Nat.le_refl _),
      holds.cells]
    simp [Block.slice, Block.put]

/-- A cell behind the text does not belong to it. -/
theorem mark (c : α) : Writes (Writer.mark c) [] := by
  intro w size bytes holds room
  have lt : w.pos < w.buf.size := by
    rw [holds.pos, holds.size]
    exact Nat.lt_of_le_of_lt (Nat.le_add_right ..) room
  refine ⟨⟨w.buf.put w.pos c, w.pos⟩, ?_, holds.size, ?_, ?_⟩
  · rw [Writer.mark, Block.set_of_lt lt]
    rfl
  · simp [holds.pos]
  · rw [List.append_nil, holds.pos, slice_put_of_le (Nat.le_refl _), holds.cells]

theorem seq (first : Writes f text) (second : Writes g more) :
    Writes (fun w => f w >>= g) (text ++ more) := by
  intro w size bytes holds room
  rw [List.length_append] at room
  obtain ⟨w₁, ran₁, holds₁⟩ := first w size bytes holds (by omega)
  obtain ⟨w₂, ran₂, holds₂⟩ := second w₁ size _ holds₁ (by rw [List.length_append]; omega)
  refine ⟨w₂, ?_, by rwa [List.append_assoc] at holds₂⟩
  change (f w >>= g) = _
  rw [ran₁]
  exact ran₂

theorem copy (src : List α) : Writes (Writer.copy src) src := by
  induction src with
  | nil => exact nothing
  | cons c src ih => exact (char c).seq ih

end Writes

end Writer

end Memory
