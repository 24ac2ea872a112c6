import Mathlib.Data.List.Nodup
import Mathlib.Logic.Function.Basic

/-!
# A finite map kept in chains

Entries carry their key, and every key has a home among some places. A family of
chains, one for each place, holds a map when each bound entry is once in the chain
of its home and nothing else is anywhere. What a home is is left open: it may
change while entries are moved from one place to another.
-/

namespace Chained

open Function

universe u

variable {β κ ι : Type u} (key : ι → κ)

/-- The chains hold exactly the entries of the map, each once, each at home. -/
structure Holds (home : κ → β) (m : κ → Option ι) (chains : β → List ι) : Prop where
  keyed : ∀ k it, m k = some it → key it = k
  mem_iff : ∀ b it, it ∈ chains b ↔ m (key it) = some it ∧ home (key it) = b
  nodup : ∀ b, (chains b).Nodup

namespace Holds

variable {key} {home home' : κ → β} {m : κ → Option ι} {chains : β → List ι}

/-- Only the homes of bound keys matter. -/
theorem congr_home (holds : Holds key home m chains)
    (same : ∀ it, m (key it) = some it → home' (key it) = home (key it)) :
    Holds key home' m chains := by
  refine ⟨holds.keyed, ?_, holds.nodup⟩
  intro b it
  rw [holds.mem_iff]
  constructor
  · rintro ⟨bound, rfl⟩
    exact ⟨bound, same it bound⟩
  · rintro ⟨bound, rfl⟩
    exact ⟨bound, (same it bound).symm⟩

theorem congr_chains {chains' : β → List ι} (holds : Holds key home m chains)
    (same : ∀ b, chains' b = chains b) : Holds key home m chains' := by
  rwa [funext same]

/-- How often an entry occurs in a chain. -/
theorem count [DecidableEq ι] [DecidableEq β] (holds : Holds key home m chains) {it : ι}
    (bound : m (key it) = some it) (b : β) :
    (chains b).count it = if home (key it) = b then 1 else 0 := by
  have mem := holds.mem_iff b it
  split
  · rename_i here
    exact List.count_eq_one_of_mem (holds.nodup b) (mem.mpr ⟨bound, here⟩)
  · rename_i elsewhere
    apply List.count_eq_zero_of_not_mem
    intro inside
    exact elsewhere (mem.mp inside).2

variable [DecidableEq κ]

/-- The first entry with a key in the chain of its home is the entry of the map. -/
theorem find (holds : Holds key home m chains) (k : κ) :
    (chains (home k)).find? (fun it => decide (k = key it)) = m k := by
  cases bound : m k with
  | none =>
    apply List.find?_eq_none.mpr
    intro it mem same
    rw [holds.mem_iff] at mem
    rw [← of_decide_eq_true same, bound] at mem
    cases mem.1
  | some it =>
    obtain rfl := holds.keyed k it bound
    have mem : it ∈ chains (home (key it)) := (holds.mem_iff _ it).mpr ⟨bound, rfl⟩
    cases found : (chains (home (key it))).find? (fun other => decide (key it = key other)) with
    | none =>
      have absent := List.find?_eq_none.mp found it mem
      simp at absent
    | some other =>
      have same : key it = key other := by simpa using List.find?_some found
      have bound' := ((holds.mem_iff _ other).mp (List.mem_of_find?_eq_some found)).1
      rw [← same, bound] at bound'
      exact bound'.symm

variable [DecidableEq β]

/-- A new entry is put in front of the chain of its home. -/
theorem insert (holds : Holds key home m chains) {it : ι} (absent : m (key it) = none) :
    Holds key home (update m (key it) (some it))
      (update chains (home (key it)) (it :: chains (home (key it)))) := by
  have fresh : ∀ b, it ∉ chains b := by
    intro b mem
    rw [holds.mem_iff, absent] at mem
    cases mem.1
  constructor
  · intro k other bound
    by_cases same : k = key it
    · subst k
      rw [update_self] at bound
      rw [← Option.some.inj bound]
    · rw [update_of_ne same] at bound
      exact holds.keyed k other bound
  · intro b other
    by_cases same : other = it
    · subst other
      by_cases here : b = home (key it)
      · subst b
        simp
      · simp [update_of_ne here, fresh b, Ne.symm here]
    have otherKey : update m (key it) (some it) (key other) = some other ↔
        m (key other) = some other := by
      by_cases sameKey : key other = key it
      · rw [sameKey, update_self, absent]
        simp [Ne.symm same]
      · rw [update_of_ne sameKey]
    rw [otherKey, ← holds.mem_iff]
    by_cases here : b = home (key it)
    · subst b
      simp [same]
    · rw [update_of_ne here]
  · intro b
    by_cases here : b = home (key it)
    · subst b
      rw [update_self, List.nodup_cons]
      exact ⟨fresh _, holds.nodup _⟩
    · rw [update_of_ne here]
      exact holds.nodup b

theorem erase (holds : Holds key home m chains) (k : κ) :
    Holds key home (update m k none)
      (update chains (home k)
        ((chains (home k)).eraseP fun it => decide (k = key it))) := by
  have kept : ∀ it, it ∈ (chains (home k)).eraseP (fun it => decide (k = key it)) ↔
      it ∈ chains (home k) ∧ key it ≠ k := by
    intro it
    constructor
    · intro mem
      have inside := List.mem_of_mem_eraseP mem
      refine ⟨inside, ?_⟩
      rintro rfl
      -- the entry with this key was there once, and it is the one that went
      have bound := ((holds.mem_iff _ it).mp inside).1
      obtain ⟨a, l₁, l₂, before, same, split, rest⟩ :=
        List.exists_of_eraseP (p := fun other => decide (key it = key other)) inside (by simp)
      have first : a = it := by
        have mem' : a ∈ chains (home (key it)) := by simp [split]
        have bound' := ((holds.mem_iff _ a).mp mem').1
        rw [← of_decide_eq_true same, bound] at bound'
        exact (Option.some.inj bound').symm
      subst a
      have once := holds.nodup (home (key it))
      rw [split] at once
      rw [rest] at mem
      have apart := (List.nodup_middle.mp once)
      exact (List.nodup_cons.mp apart).1 mem
    · rintro ⟨inside, other⟩
      exact (List.mem_eraseP_of_neg (by simpa using Ne.symm other)).mpr inside
  constructor
  · intro k' it bound
    by_cases same : k' = k
    · subst k'
      rw [update_self] at bound
      cases bound
    · rw [update_of_ne same] at bound
      exact holds.keyed k' it bound
  · intro b it
    by_cases same : key it = k
    · rw [same, update_self]
      by_cases here : b = home k
      · subst b
        simp [kept, same]
      · rw [update_of_ne here, holds.mem_iff, same]
        simp [Ne.symm here]
    · rw [update_of_ne same, ← holds.mem_iff]
      by_cases here : b = home k
      · subst b
        rw [update_self, kept]
        simp [same]
      · rw [update_of_ne here]
  · intro b
    by_cases here : b = home k
    · subst b
      rw [update_self]
      exact (holds.nodup _).eraseP _
    · rw [update_of_ne here]
      exact holds.nodup b

/-- The first entry of a chain moves to the front of another one. -/
theorem move (holds : Holds key home m chains) {b b' : β} (apart : b ≠ b') {it : ι}
    {rest : List ι} (first : chains b = it :: rest) :
    Holds key (update home (key it) b') m
      (update (update chains b rest) b' (it :: chains b')) := by
  have inside : it ∈ chains b := by simp [first]
  obtain ⟨bound, here⟩ := (holds.mem_iff b it).mp inside
  have once := holds.nodup b
  rw [first, List.nodup_cons] at once
  have elsewhere : ∀ c, c ≠ b → it ∉ chains c := by
    intro c ne mem
    exact ne (((holds.mem_iff c it).mp mem).2.symm.trans here)
  refine ⟨holds.keyed, ?_, ?_⟩
  · intro c other
    by_cases same : other = it
    · subst other
      rw [update_self]
      by_cases atTarget : c = b'
      · subst c
        simp [bound]
      · rw [update_of_ne atTarget]
        by_cases atSource : c = b
        · subst c
          simp [once.1, Ne.symm atTarget]
        · simp [update_of_ne atSource, elsewhere c atSource, Ne.symm atTarget]
    · have home' : m (key other) = some other →
          update home (key it) b' (key other) = home (key other) := by
        intro bound'
        refine update_of_ne ?_ _ _
        intro sameKey
        rw [sameKey, bound] at bound'
        exact same (Option.some.inj bound').symm
      have old := holds.mem_iff c other
      have unmoved : (m (key other) = some other ∧
          update home (key it) b' (key other) = c) ↔
          m (key other) = some other ∧ home (key other) = c := by
        constructor
        · rintro ⟨bound', there⟩
          exact ⟨bound', (home' bound').symm.trans there⟩
        · rintro ⟨bound', there⟩
          exact ⟨bound', (home' bound').trans there⟩
      rw [unmoved, ← old]
      by_cases atTarget : c = b'
      · subst c
        simp [same]
      · rw [update_of_ne atTarget]
        by_cases atSource : c = b
        · subst c
          simp [first, same]
        · rw [update_of_ne atSource]
  · intro c
    by_cases atTarget : c = b'
    · subst c
      rw [update_self, List.nodup_cons]
      exact ⟨elsewhere b' (Ne.symm apart), holds.nodup b'⟩
    rw [update_of_ne atTarget]
    by_cases atSource : c = b
    · subst c
      rw [update_self]
      exact once.2
    · rw [update_of_ne atSource]
      exact holds.nodup c

end Holds

end Chained
