import Mathlib.Logic.Function.Basic

/-!
# Objects that count their references

An object carries the number of references to it. One of them may belong to a
table, its root; the others are held by somebody. The memory of an object is given
back by the release that takes the count to zero.

A ledger has one entry for each object. It is exact for an account of the holders
when every count is the number of references and memory was given back once, and
only for what nobody refers to. The account is an argument: each operation has a
rule that says how the account changes.
-/

namespace Counted

/-- What is known of one object. -/
structure Entry where
  /-- The object was created. -/
  known : Bool
  /-- The table refers to it. -/
  rooted : Bool
  count : Nat
  /-- How often its memory was given back. -/
  freed : Nat
  /-- The largest count an increment has left. -/
  peak : Nat
  deriving DecidableEq, Repr

namespace Entry

/-- The object right after its creation, in the hands of its creator. -/
def created : Entry := ⟨true, false, 1, 0, 0⟩

/-- Take a reference. -/
def acquire (e : Entry) : Entry :=
  { e with count := e.count + 1, peak := max e.peak (e.count + 1) }

/-- Decrement the count without looking at it. -/
def forgo (e : Entry) : Entry := { e with count := e.count - 1 }

/-- Give a reference back, and the memory with the last one. -/
def release (e : Entry) : Entry :=
  { e with count := e.count - 1, freed := if e.count - 1 = 0 then e.freed + 1 else e.freed }

/-- Enter the object into the table. -/
def root (e : Entry) : Entry := { e.acquire with rooted := true }

/-- Take the object out of the table. -/
def unroot (e : Entry) : Entry := { e with rooted := false }.release

/-- The count is the number of references, of which `held` are not the table's, and
no increment has gone beyond the limit. -/
structure Exact (held limit : Nat) (e : Entry) : Prop where
  count : e.known = true → e.count = e.rooted.toNat + held
  freed : e.known = true → e.freed = if e.count = 0 then 1 else 0
  peak : e.known = true → e.peak ≤ limit
  unknown : e.known = false → held = 0

namespace Exact

variable {held limit : Nat} {e : Entry}

theorem known_of_pos (exact : e.Exact held limit) (pos : 0 < held) : e.known = true := by
  cases known : e.known with
  | true => rfl
  | false => exact absurd (exact.unknown known) (Nat.ne_of_gt pos)

theorem mono {limit' : Nat} (exact : e.Exact held limit) (le : limit ≤ limit') :
    e.Exact held limit' :=
  { exact with peak := fun known => Nat.le_trans (exact.peak known) le }

protected theorem created : created.Exact 1 limit where
  count := fun _ => rfl
  freed := fun _ => rfl
  peak := fun _ => Nat.zero_le _
  unknown := fun unknown => by cases unknown

/-- Only of an object that is referred to already a reference can be taken. -/
protected theorem acquire (exact : e.Exact held limit) (known : e.known = true)
    (alive : e.rooted = true ∨ 0 < held) (room : e.rooted.toNat + held < limit) :
    e.acquire.Exact (held + 1) limit := by
  have count := exact.count known
  have freed := exact.freed known
  have positive : e.count ≠ 0 := by
    rcases alive with rooted | held
    · rw [count, rooted]
      exact Nat.ne_of_gt (Nat.succ_le_iff.mp (Nat.le_add_right 1 _))
    · omega
  refine ⟨fun _ => ?_, fun _ => ?_, fun _ => ?_, fun unknown => ?_⟩
  · simp only [Entry.acquire]
    omega
  · simp [Entry.acquire, freed, positive]
  · exact Nat.max_le.mpr ⟨exact.peak known, by omega⟩
  · cases known.symm.trans unknown

protected theorem release (exact : e.Exact (held + 1) limit) : e.release.Exact held limit := by
  have known := exact.known_of_pos (Nat.succ_pos held)
  have count := exact.count known
  have freed := exact.freed known
  refine ⟨fun _ => ?_, fun _ => ?_, fun _ => exact.peak known, fun unknown => ?_⟩
  · simp only [Entry.release]
    omega
  · simp [Entry.release, freed, count, ← Nat.add_assoc]
  · cases known.symm.trans unknown

/-- A decrement that nobody looks at must not be the last one. -/
protected theorem forgo (exact : e.Exact (held + 1) limit) (alive : e.rooted = true ∨ 0 < held) :
    e.forgo.Exact held limit := by
  have known := exact.known_of_pos (Nat.succ_pos held)
  have count := exact.count known
  have freed := exact.freed known
  have positive : e.rooted.toNat + held ≠ 0 := by
    rcases alive with rooted | held
    · rw [rooted]
      exact Nat.ne_of_gt (Nat.succ_le_iff.mp (Nat.le_add_right 1 _))
    · omega
  refine ⟨fun _ => ?_, fun _ => ?_, fun _ => exact.peak known, fun unknown => ?_⟩
  · simp only [Entry.forgo]
    omega
  · have after : e.count - 1 ≠ 0 := by omega
    have before : e.count ≠ 0 := by omega
    simp [Entry.forgo, freed, after, before]
  · cases known.symm.trans unknown

/-- The holder of an object that is not in the table enters it. -/
protected theorem root (exact : e.Exact held limit) (pos : 0 < held) (free : e.rooted = false)
    (room : held < limit) : e.root.Exact held limit := by
  have known := exact.known_of_pos pos
  have taken := exact.acquire known (.inr pos) (by simpa [free] using room)
  refine ⟨fun _ => ?_, taken.freed, taken.peak, fun unknown => ?_⟩
  · have count := taken.count known
    simp only [Entry.acquire, free, Bool.toNat_false] at count
    simp only [Entry.root, Entry.acquire, Bool.toNat_true]
    omega
  · cases known.symm.trans unknown

/-- Somebody who holds the object takes it out of the table. -/
protected theorem unroot (exact : e.Exact held limit) (pos : 0 < held)
    (rooted : e.rooted = true) : e.unroot.Exact held limit := by
  have known := exact.known_of_pos pos
  have count := exact.count known
  rw [rooted, Bool.toNat_true] at count
  -- Until it is released, the table's reference belongs to whoever unlinks.
  have taken : ({ e with rooted := false } : Entry).Exact (held + 1) limit := by
    refine ⟨fun _ => ?_, exact.freed, exact.peak, fun unknown => ?_⟩
    · simp only [Bool.toNat_false]
      omega
    · cases known.symm.trans unknown
  exact taken.release

end Exact

end Entry

/-! ## Accounts -/

section

variable {ι : Type} {limit : Nat} {held held' : ι → Nat} {l l' : ι → Entry}

/-- Every entry is exact for the number of its holders. -/
def Exact (held : ι → Nat) (limit : Nat) (l : ι → Entry) : Prop :=
  ∀ p, (l p).Exact (held p) limit

theorem Exact.mono {limit' : Nat} (exact : Exact held limit l) (le : limit ≤ limit') :
    Exact held limit' l :=
  fun p => (exact p).mono le

/-- One entry and its account change. -/
theorem Exact.change (exact : Exact held limit l) (p : ι)
    (others : ∀ q, q ≠ p → l' q = l q ∧ held' q = held q)
    (here : (l' p).Exact (held' p) limit) : Exact held' limit l' := by
  classical
  intro q
  by_cases same : q = p
  · subst q
    exact here
  · obtain ⟨entry, account⟩ := others q same
    rw [entry, account]
    exact exact q

variable [DecidableEq ι]

/-- The account with one more holder of an object. -/
def more (held : ι → Nat) (p : ι) : ι → Nat := fun q => held q + if q = p then 1 else 0

@[simp] theorem more_self (held : ι → Nat) (p : ι) : more held p p = held p + 1 := by
  simp [more]

theorem more_of_ne (held : ι → Nat) {p q : ι} (ne : q ≠ p) : more held p q = held q := by
  simp [more, ne]

theorem more_comm (held : ι → Nat) (p q : ι) : more (more held p) q = more (more held q) p := by
  funext r
  simp only [more]
  omega

theorem le_more (held : ι → Nat) (p q : ι) : held q ≤ more held p q := Nat.le_add_right _ _

theorem more_le (held : ι → Nat) (p q : ι) : more held p q ≤ held q + 1 := by
  simp only [more]
  split <;> omega

end

/-! ## Holders kept in lists -/

section

variable {α : Type} {f : α → Bool} {l : List α} {i : Nat} {a : α}

/-- One place of a list gets another content. -/
theorem countP_set (here : l[i]? = some a) (b : α) :
    (l.set i b).countP f + (if f a then 1 else 0) = l.countP f + if f b then 1 else 0 := by
  induction l generalizing i with
  | nil => simp at here
  | cons c l ih =>
    cases i with
    | zero =>
      obtain rfl : c = a := by simpa using here
      simp only [List.set_cons_zero, List.countP_cons]
      omega
    | succ i =>
      have rest := ih (i := i) (by simpa using here)
      simp only [List.set_cons_succ, List.countP_cons]
      omega

/-- One place of a list is taken out. -/
theorem countP_eraseIdx (here : l[i]? = some a) :
    (l.eraseIdx i).countP f + (if f a then 1 else 0) = l.countP f := by
  induction l generalizing i with
  | nil => simp at here
  | cons c l ih =>
    cases i with
    | zero =>
      obtain rfl : c = a := by simpa using here
      simp [List.countP_cons]
    | succ i =>
      have rest := ih (i := i) (by simpa using here)
      simp only [List.eraseIdx_cons_succ, List.countP_cons]
      omega

end

end Counted
