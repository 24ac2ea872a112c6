import Kvsev.Memory.Block

/-!
# Loops over the bytes of a block

`forRange` is the counting loop of C over a fallible body, with the usual rule: a
statement about the counter and the state that each iteration keeps holds at the
end. `strncpy` copies a string with such a loop. It stops reading at the first
zero and fills the rest of the range with zeroes. `text` gives the bytes of a literal.
-/

namespace Memory

open Function

/-- The codes of characters. -/
def ascii (s : List Char) : List UInt8 := s.map fun c => UInt8.ofNat c.toNat

/-- The bytes of a text. -/
def text (s : String) : List UInt8 := ascii s.toList

def crlf : List UInt8 := [13, 10]

namespace Block

variable {α : Type} {b b' : Block α}

/-- Read one cell. -/
def get (b : Block α) (i : Nat) : Exec α :=
  if i < b.size then return b.cell i else throw .invalidAccess

/-- The block with one cell replaced. -/
def put (b : Block α) (i : Nat) (a : α) : Block α :=
  { b with cell := update b.cell i a }

/-- Write one cell. -/
def set (b : Block α) (i : Nat) (a : α) : Exec (Block α) :=
  if i < b.size then return b.put i a else throw .invalidAccess

theorem get_of_lt {i : Nat} (lt : i < b.size) : b.get i = .ok (b.cell i) := if_pos lt

theorem set_of_lt {i : Nat} (lt : i < b.size) (a : α) : b.set i a = .ok (b.put i a) := if_pos lt

@[simp] theorem put_size (i : Nat) (a : α) : (b.put i a).size = b.size := rfl

@[simp] theorem put_cell_self (i : Nat) (a : α) : (b.put i a).cell i = a :=
  update_self ..

theorem put_cell_of_ne {i j : Nat} {a : α} (ne : j ≠ i) : (b.put i a).cell j = b.cell j :=
  update_of_ne ne ..

end Block

namespace Exec

variable {σ : Type}

/-- `for (k = 0; k < n; k++)` -/
def forRange (n : Nat) (body : Nat → σ → Exec σ) (s : σ) : Exec σ :=
  match n with
  | 0 => .ok s
  | n + 1 => do
    let s ← forRange n body s
    body n s

theorem forRange_rule {n : Nat} {body : Nat → σ → Exec σ} {s : σ} (inv : Nat → σ → Prop)
    (start : inv 0 s) (step : ∀ k t, k < n → inv k t → ∃ t', body k t = .ok t' ∧ inv (k + 1) t') :
    ∃ t, forRange n body s = .ok t ∧ inv n t := by
  induction n with
  | zero => exact ⟨s, rfl, start⟩
  | succ n ih =>
    obtain ⟨t, ran, here⟩ := ih fun k t lt => step k t (Nat.lt_succ_of_lt lt)
    obtain ⟨t', last, there⟩ := step n t (Nat.lt_succ_self n) here
    exact ⟨t', by rw [forRange, ran]; exact last, there⟩

/-- Work on one entry of an array. -/
def onEntry (body : Nat → σ → Exec σ) (k : Nat) (f : Nat → σ) : Exec (Nat → σ) := do
  let a ← body k (f k)
  return update f k a

/-- The loop that works on the entries of an array one by one. -/
def forEntries (n : Nat) (body : Nat → σ → Exec σ) (f : Nat → σ) : Exec (Nat → σ) :=
  forRange n (onEntry body) f

/-- Each entry is worked on once, and as it was found. -/
theorem forEntries_rule {n : Nat} {body : Nat → σ → Exec σ} {f : Nat → σ} (P : Nat → σ → Prop)
    (each : ∀ k < n, ∃ a, body k (f k) = .ok a ∧ P k a) :
    ∃ g, forEntries n body f = .ok g ∧ ∀ k < n, P k (g k) := by
  have step : ∀ k g, k < n → ((∀ i < k, P i (g i)) ∧ ∀ i ≥ k, g i = f i) →
      ∃ g', onEntry body k g = .ok g' ∧ (∀ i < k + 1, P i (g' i)) ∧ ∀ i ≥ k + 1, g' i = f i := by
    rintro k g lt ⟨done, rest⟩
    obtain ⟨a, ran, here⟩ := each k lt
    refine ⟨update g k a, ?_, fun i below => ?_, fun i above => ?_⟩
    · rw [onEntry, rest k (Nat.le_refl k), ran]
      rfl
    · by_cases last : i = k
      · subst last
        rwa [update_self]
      · rw [update_of_ne last]
        exact done i (by omega)
    · rw [update_of_ne (by omega)]
      exact rest i (by omega)
  obtain ⟨g, ran, done, -⟩ := forRange_rule
    (fun m (g : Nat → σ) => (∀ i < m, P i (g i)) ∧ ∀ i ≥ m, g i = f i) ⟨nofun, fun _ _ => rfl⟩ step
  exact ⟨g, ran, done⟩

end Exec

/-- One iteration of `strncpy`. The flag says that the end of the string was seen. -/
def copyChar (src : Block UInt8) (k : Nat) (t : Block UInt8 × Bool) :
    Exec (Block UInt8 × Bool) := do
  if t.2 then
    let dst ← t.1.set k 0
    return (dst, true)
  else
    let c ← src.get k
    let dst ← t.1.set k c
    return (dst, c = 0)

/-- The `strncpy` of C. -/
def strncpy (dst src : Block UInt8) (n : Nat) : Exec (Block UInt8) := do
  let done ← Exec.forRange n (copyChar src) (dst, false)
  return done.1

/-- What `strncpy` leaves at a position: the string, and zeroes behind its end. -/
def stringAt (src : Block UInt8) (p : Nat) : UInt8 :=
  if ∃ j < p, src.cell j = 0 then 0 else src.cell p

/-- The first `k` characters were copied. -/
structure Copied (dst src : Block UInt8) (k : Nat) (t : Block UInt8 × Bool) : Prop where
  size : t.1.size = dst.size
  cells : ∀ p < k, t.1.cell p = stringAt src p
  ended : t.2 = true ↔ ∃ j < k, src.cell j = 0

theorem Copied.step {dst src : Block UInt8} {k : Nat} {t : Block UInt8 × Bool}
    (copied : Copied dst src k t) (room : k < dst.size) (readable : k < src.size) :
    ∃ t', copyChar src k t = .ok t' ∧ Copied dst src (k + 1) t' := by
  have inside : k < t.1.size := copied.size ▸ room
  have cells : ∀ c, c = stringAt src k → ∀ p < k + 1,
      update t.1.cell k c p = stringAt src p := by
    intro c same p lt
    by_cases last : p = k
    · subst last
      rw [update_self, same]
    · rw [update_of_ne last]
      exact copied.cells p (by omega)
  by_cases ended : t.2 = true
  · have before := copied.ended.mp ended
    refine ⟨(t.1.put k 0, true), ?_, copied.size,
      cells 0 ?_, ?_⟩
    · rw [copyChar, if_pos ended, Block.set_of_lt inside]
      rfl
    · rw [stringAt, if_pos before]
    · obtain ⟨j, lt, zero⟩ := before
      exact ⟨fun _ => ⟨j, by omega, zero⟩, fun _ => rfl⟩
  · have before : ¬ ∃ j < k, src.cell j = 0 := fun seen => ended (copied.ended.mpr seen)
    refine ⟨(t.1.put k (src.cell k), src.cell k = 0), ?_,
      copied.size, cells (src.cell k) ?_, ?_⟩
    · rw [copyChar, if_neg ended, Block.get_of_lt readable, Exec.ok_bind, Block.set_of_lt inside]
      rfl
    · rw [stringAt, if_neg before]
    · rw [decide_eq_true_iff]
      constructor
      · exact fun zero => ⟨k, by omega, zero⟩
      · rintro ⟨j, lt, zero⟩
        by_cases last : j = k
        · rwa [← last]
        · exact absurd ⟨j, by omega, zero⟩ before

theorem strncpy_spec {dst src : Block UInt8} {n : Nat} (room : n ≤ dst.size)
    (readable : n ≤ src.size) :
    ∃ b, strncpy dst src n = .ok b ∧ b.size = dst.size ∧ ∀ p < n, b.cell p = stringAt src p := by
  have start : Copied dst src 0 (dst, false) := ⟨rfl, nofun, by simp⟩
  obtain ⟨⟨b, ended⟩, ran, copied⟩ := Exec.forRange_rule (Copied dst src) start
    fun k t lt copied => copied.step (Nat.lt_of_lt_of_le lt room) (Nat.lt_of_lt_of_le lt readable)
  exact ⟨b, by rw [strncpy, ran]; rfl, copied.size, copied.cells⟩

/-- A copy without a zero in it is the source. -/
theorem stringAt_eq_iff {src : Block UInt8} {n : Nat} {text : Nat → UInt8}
    (nonzero : ∀ p < n, text p ≠ 0) :
    (∀ p < n, stringAt src p = text p) ↔ ∀ p < n, src.cell p = text p := by
  have same : ∀ p < n, (∀ j < p, src.cell j ≠ 0) → stringAt src p = src.cell p := by
    intro p _ before
    rw [stringAt, if_neg]
    rintro ⟨j, lt, zero⟩
    exact before j lt zero
  constructor
  · intro copied p
    induction p using Nat.strongRecOn with
    | ind p ih =>
      intro lt
      have before : ∀ j < p, src.cell j ≠ 0 := by
        intro j below
        rw [ih j below (by omega)]
        exact nonzero j (by omega)
      rw [← same p lt before]
      exact copied p lt
  · intro equal p lt
    rw [same p lt, equal p lt]
    intro j below
    rw [equal j (by omega)]
    exact nonzero j (by omega)

end Memory
