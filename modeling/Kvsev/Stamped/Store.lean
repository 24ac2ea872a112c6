import Mathlib.Logic.Function.Basic

/-!
# A table of stamped objects

A table maps keys to objects. An object has a key, some content, a stamp and a mark.
Stamps come from a clock that only goes forward, and whoever enters an object into the
table or changes the content of one takes a new stamp for it.

`Renews` says what a step may do, apart from some objects it is about. Steps compose,
and along steps a stamp stands for one content of its key: once the table has lost an
object with that stamp, it never gets one again.

Stamps may also not be in use, or have run out; then `timed` is false, and only what
does not depend on them is left.
-/

namespace Stamped

structure Store (κ α : Type) where
  /-- Objects from here on do not exist yet. -/
  next : Nat
  clock : Nat
  table : κ → Option Nat
  key : Nat → κ
  stamp : Nat → Nat
  content : Nat → α
  mark : Nat → Bool

variable {κ α : Type} {timed : Prop}

/-- The table holds objects under their own keys, with stamps that were given out. -/
structure WellFormed (timed : Prop) (s : Store κ α) : Prop where
  old : ∀ k p, s.table k = some p → p < s.next
  key : ∀ k p, s.table k = some p → s.key p = k
  stamped : timed → ∀ k p, s.table k = some p → s.stamp p ≤ s.clock

/-- Under other keys are other objects. -/
theorem WellFormed.ne_of_key {s : Store κ α} (wf : WellFormed timed s) {k : κ} {p q : Nat}
    (other : k ≠ s.key p) (found : s.table k = some q) : q ≠ p :=
  fun same => other (by rw [← wf.key k q found, same])

/-- The object is in the table, or what is there instead has another stamp. -/
structure Dated (s : Store κ α) (p : Nat) : Prop where
  stamped : s.stamp p ≤ s.clock
  apart : s.table (s.key p) = some p ∨ ∀ q, s.table (s.key p) = some q → s.stamp q ≠ s.stamp p

/-- The objects that a step is about. -/
structure Targets where
  /-- Objects that get the stamp of what replaces them. -/
  replaced : Nat → Prop
  /-- Objects whose mark may be taken away. -/
  cleared : Nat → Prop
  /-- Objects that may be entered into the table. -/
  linked : Nat → Prop

def Targets.none : Targets := ⟨fun _ => False, fun _ => False, fun _ => False⟩

/-- Targets within targets, as far as objects below a bound go. -/
structure Targets.Within (bound : Nat) (t t' : Targets) : Prop where
  replaced : ∀ p < bound, t.replaced p → t'.replaced p
  cleared : ∀ p < bound, t.cleared p → t'.cleared p
  linked : ∀ p < bound, t.linked p → t'.linked p

/-- What a step does to the objects that were there before. -/
structure Renews (timed : Prop) (t : Targets) (s s' : Store κ α) : Prop where
  next : s.next ≤ s'.next
  clock : timed → s.clock ≤ s'.clock
  wellFormed : WellFormed timed s'
  key : ∀ p < s.next, s'.key p = s.key p
  /-- Another content comes with another stamp. -/
  content : timed → ∀ p < s.next, s'.stamp p = s.stamp p ∧ s'.content p = s.content p ∨
    s.clock < s'.stamp p ∧ s'.stamp p ≤ s'.clock
  /-- What is new in the table has a new stamp. -/
  table : timed → ∀ k p, s'.table k = some p → s.table k = some p ∨ s.clock < s'.stamp p
  dated : timed → ∀ p < s.next, ¬t.replaced p → Dated s p → Dated s' p
  mark : ∀ p < s.next, ¬t.cleared p → s.mark p = true → s'.mark p = true
  /-- Objects outside the table stay there. -/
  outside : ∀ p < s.next, ¬t.linked p → (∀ k, s.table k ≠ some p) →
    s'.stamp p = s.stamp p ∧ ∀ k, s'.table k ≠ some p

namespace Renews

variable {t t' : Targets} {s s' s'' : Store κ α}

theorem refl (t : Targets) (wf : WellFormed timed s) : Renews timed t s s where
  next := Nat.le_refl _
  clock := fun _ => Nat.le_refl _
  wellFormed := wf
  key := fun _ _ => rfl
  content := fun _ _ _ => .inl ⟨rfl, rfl⟩
  table := fun _ _ _ found => .inl found
  dated := fun _ _ _ _ dated => dated
  mark := fun _ _ _ mark => mark
  outside := fun _ _ _ out => ⟨rfl, out⟩

theorem weaken (ren : Renews timed t s s') (within : t.Within s.next t') :
    Renews timed t' s s' :=
  { ren with
    dated := fun time p lt mine => ren.dated time p lt fun his => mine (within.replaced p lt his)
    mark := fun p lt mine => ren.mark p lt fun his => mine (within.cleared p lt his)
    outside := fun p lt mine => ren.outside p lt fun his => mine (within.linked p lt his) }

theorem trans (first : Renews timed t s s') (second : Renews timed t s' s'') :
    Renews timed t s s'' where
  next := Nat.le_trans first.next second.next
  clock := fun time => Nat.le_trans (first.clock time) (second.clock time)
  wellFormed := second.wellFormed
  key := fun p lt =>
    (second.key p (Nat.lt_of_lt_of_le lt first.next)).trans (first.key p lt)
  content := by
    intro time p lt
    have le := second.clock time
    have before := first.clock time
    rcases second.content time p (Nat.lt_of_lt_of_le lt first.next) with ⟨stamp, content⟩ | fresh
    · rcases first.content time p lt with ⟨stamp', content'⟩ | fresh
      · exact .inl ⟨stamp.trans stamp', content.trans content'⟩
      · exact .inr (by omega)
    · exact .inr (by omega)
  table := by
    intro time k p found
    have le := first.clock time
    rcases second.table time k p found with found' | fresh
    · rcases first.table time k p found' with found'' | fresh
      · exact .inl found''
      · have old := first.wellFormed.old k p found'
        rcases second.content time p old with ⟨stamp, -⟩ | fresh'
        · exact .inr (by omega)
        · exact .inr (by omega)
    · exact .inr (by omega)
  dated := fun time p lt mine dated =>
    second.dated time p (Nat.lt_of_lt_of_le lt first.next) mine (first.dated time p lt mine dated)
  mark := fun p lt mine mark =>
    second.mark p (Nat.lt_of_lt_of_le lt first.next) mine (first.mark p lt mine mark)
  outside := by
    intro p lt mine out
    obtain ⟨stamp, out'⟩ := first.outside p lt mine out
    obtain ⟨stamp', out''⟩ := second.outside p (Nat.lt_of_lt_of_le lt first.next) mine out'
    exact ⟨stamp'.trans stamp, out''⟩

/-! ## Steps -/

/-- Steps that enter nothing into the table and change no content. -/
theorem of_subset (wf : WellFormed timed s) (next : s.next ≤ s'.next)
    (clock : timed → s.clock ≤ s'.clock)
    (table : ∀ k p, s'.table k = some p → s.table k = some p)
    (same : ∀ p < s.next, s'.key p = s.key p ∧ s'.stamp p = s.stamp p ∧
      s'.content p = s.content p)
    (mark : ∀ p < s.next, ¬t.cleared p → s.mark p = true → s'.mark p = true) :
    Renews timed t s s' where
  next := next
  clock := clock
  wellFormed :=
    { old := fun k p found => Nat.lt_of_lt_of_le (wf.old k p (table k p found)) next
      key := fun k p found => by
        have before := table k p found
        rw [(same p (wf.old k p before)).1, wf.key k p before]
      stamped := fun time k p found => by
        have before := table k p found
        rw [(same p (wf.old k p before)).2.1]
        exact Nat.le_trans (wf.stamped time k p before) (clock time) }
  key := fun p lt => (same p lt).1
  content := fun _ p lt => .inl (same p lt).2
  table := fun _ k p found => .inl (table k p found)
  dated := by
    rintro time p lt - ⟨stamped, apart⟩
    obtain ⟨key, stamp, -⟩ := same p lt
    refine ⟨by rw [stamp]; exact Nat.le_trans stamped (clock time), ?_⟩
    rw [key, stamp]
    rcases apart with inside | apart
    · cases found : s'.table (s.key p) with
      | none => exact .inr fun q other => by cases other
      | some q =>
        have before := table _ q found
        rw [inside] at before
        exact .inl before.symm
    · refine .inr fun q found => ?_
      have before := table _ q found
      rw [(same q (wf.old _ q before)).2.1]
      exact apart q before
  mark := mark
  outside := fun p lt _ out =>
    ⟨(same p lt).2.1, fun k found => out k (table k p found)⟩

end Renews

/-- One object gets a new stamp and is, from now on if not already, in the table. -/
structure Restamps [DecidableEq κ] (timed : Prop) (p : Nat) (s s' : Store κ α) : Prop where
  lt : p < s.next
  next : s'.next = s.next
  clock : timed → s'.clock = s.clock + 1
  table : s'.table = Function.update s.table (s.key p) (some p)
  key : s'.key p = s.key p
  stamp : timed → s'.stamp p = s.clock + 1
  same : ∀ q < s.next, q ≠ p → s'.key q = s.key q ∧ s'.stamp q = s.stamp q ∧
    s'.content q = s.content q

namespace Restamps

variable [DecidableEq κ] {p : Nat} {s s' : Store κ α}

section

variable (re : Restamps timed p s s')

include re

/-- What the table finds afterwards. -/
theorem found {k : κ} {q : Nat} (found : s'.table k = some q) :
    k = s.key p ∧ q = p ∨ k ≠ s.key p ∧ s.table k = some q := by
  rw [re.table] at found
  by_cases here : k = s.key p
  · rw [here, Function.update_self] at found
    exact .inl ⟨here, (Option.some.inj found).symm⟩
  · rw [Function.update_of_ne here] at found
    exact .inr ⟨here, found⟩

theorem keys {q : Nat} (lt : q < s.next) : s'.key q = s.key q := by
  by_cases mine : q = p
  · rw [mine]
    exact re.key
  · exact (re.same q lt mine).1

theorem wellFormed (wf : WellFormed timed s) :
    WellFormed timed s' where
  old := by
    intro k q found
    rw [re.next]
    rcases re.found found with ⟨-, rfl⟩ | ⟨-, before⟩
    · exact re.lt
    · exact wf.old k q before
  key := by
    intro k q found
    rcases re.found found with ⟨rfl, rfl⟩ | ⟨-, before⟩
    · exact re.key
    · rw [re.keys (wf.old k q before)]
      exact wf.key k q before
  stamped := by
    intro time k q found
    rw [re.clock time]
    rcases re.found found with ⟨-, rfl⟩ | ⟨other, before⟩
    · exact Nat.le_of_eq (re.stamp time)
    · rw [(re.same q (wf.old k q before) (wf.ne_of_key other before)).2.1]
      exact Nat.le_succ_of_le (wf.stamped time k q before)

theorem dated (wf : WellFormed timed s) (time : timed) {q : Nat}
    (lt : q < s.next) (dated : Dated s q) : Dated s' q := by
  by_cases mine : q = p
  · subst mine
    refine ⟨Nat.le_of_eq ((re.stamp time).trans (re.clock time).symm), .inl ?_⟩
    rw [re.key, re.table, Function.update_self]
  obtain ⟨key, stamp, -⟩ := re.same q lt mine
  have clock := re.clock time
  have stamped := dated.stamped
  refine ⟨by omega, ?_⟩
  rw [key, stamp]
  -- Under its own key is the object itself, the new one or what was there before.
  by_cases here : s.key q = s.key p
  · refine .inr fun r found => ?_
    rcases re.found found with ⟨-, rfl⟩ | ⟨other, -⟩
    · have := re.stamp time
      omega
    · exact absurd here other
  rcases dated.apart with inside | apart
  · rw [re.table, Function.update_of_ne here]
    exact .inl inside
  · refine .inr fun r found => ?_
    rcases re.found found with ⟨same, -⟩ | ⟨other, before⟩
    · exact absurd same here
    · rw [(re.same r (wf.old _ r before) (wf.ne_of_key other before)).2.1]
      exact apart r before

end

theorem renews {t : Targets} (re : Restamps timed p s s') (wf : WellFormed timed s)
    (mark : ∀ q < s.next, ¬t.cleared q → s.mark q = true → s'.mark q = true)
    (target : s.table (s.key p) = some p ∨ t.linked p) : Renews timed t s s' where
  next := Nat.le_of_eq re.next.symm
  clock := fun time => by rw [re.clock time]; exact Nat.le_succ _
  wellFormed := re.wellFormed wf
  key := fun q lt => re.keys lt
  content := by
    intro time q lt
    by_cases mine : q = p
    · rw [mine, re.stamp time, re.clock time]
      exact .inr ⟨Nat.lt_succ_self _, Nat.le_refl _⟩
    · exact .inl (re.same q lt mine).2
  table := by
    intro time k q found
    rcases re.found found with ⟨-, rfl⟩ | ⟨-, before⟩
    · rw [re.stamp time]
      exact .inr (Nat.lt_succ_self _)
    · exact .inl before
  dated := fun time q lt _ dated => re.dated wf time lt dated
  mark := mark
  outside := by
    intro q lt mine out
    have other : q ≠ p := by
      rintro rfl
      exact target.elim (out _) mine
    refine ⟨(re.same q lt other).2.1, fun k found => ?_⟩
    rcases re.found found with ⟨-, same⟩ | ⟨-, before⟩
    · exact other same
    · exact out k before

end Restamps

namespace Renews

variable {t : Targets} {s s' s'' : Store κ α}

/-- A step that also gives one of its new stamps to an object it has replaced. -/
theorem overwrite {p : Nat} (ren : Renews timed t s s') (mine : t.replaced p)
    (fresh : timed → s.clock < s''.stamp p ∧ s''.stamp p ≤ s'.clock)
    (gone : ∀ k, s'.table k ≠ some p) (inside : ∃ k, s.table k = some p) (next : s''.next = s'.next)
    (clock : s''.clock = s'.clock) (table : s''.table = s'.table) (key : s''.key = s'.key)
    (mark : s''.mark = s'.mark)
    (same : ∀ q, q ≠ p → s''.stamp q = s'.stamp q ∧ s''.content q = s'.content q) :
    Renews timed t s s'' := by
  have others : ∀ k q, s'.table k = some q → s''.stamp q = s'.stamp q :=
    fun k q found => (same q fun eq => gone k (eq ▸ found)).1
  refine
    { next := next ▸ ren.next
      clock := fun time => clock ▸ ren.clock time
      wellFormed := ⟨?_, ?_, ?_⟩
      key := fun q lt => by rw [key]; exact ren.key q lt
      content := ?_
      table := ?_
      dated := ?_
      mark := fun q lt target marked => by rw [mark]; exact ren.mark q lt target marked
      outside := ?_ }
  · intro k q found
    rw [next]
    exact ren.wellFormed.old k q (table ▸ found)
  · intro k q found
    rw [key]
    exact ren.wellFormed.key k q (table ▸ found)
  · intro time k q found
    rw [table] at found
    rw [others k q found, clock]
    exact ren.wellFormed.stamped time k q found
  · intro time q lt
    by_cases eq : q = p
    · rw [eq, clock]
      exact .inr (fresh time)
    · rw [(same q eq).1, (same q eq).2, clock]
      exact ren.content time q lt
  · intro time k q found
    rw [table] at found
    rw [others k q found]
    exact ren.table time k q found
  · intro time q lt target dated
    have other : q ≠ p := fun eq => target (eq ▸ mine)
    obtain ⟨stamped, apart⟩ := ren.dated time q lt target dated
    refine ⟨by rw [(same q other).1, clock]; exact stamped, ?_⟩
    rw [table, key, (same q other).1]
    refine apart.imp_right fun apart r found => ?_
    rw [others _ r found]
    exact apart r found
  · intro q lt target out
    have other : q ≠ p := by
      rintro rfl
      obtain ⟨k, found⟩ := inside
      exact out k found
    rw [(same q other).1, table]
    exact ren.outside q lt target out

end Renews

/-! ## What a stamp stands for -/

/-- The key has an object with this stamp. -/
def Alive (s : Store κ α) (k : κ) (stamp : Nat) : Prop :=
  ∃ p, s.table k = some p ∧ s.stamp p = stamp

/-- If the key has an object with this stamp, then with this content. -/
structure Stands (s : Store κ α) (k : κ) (stamp : Nat) (content : α) : Prop where
  stamped : stamp ≤ s.clock
  content : ∀ p, s.table k = some p → s.stamp p = stamp → s.content p = content

namespace Renews

variable {t : Targets} {s s' : Store κ α} {k : κ} {stamp : Nat} {content : α}

theorem alive (ren : Renews True t s s') (wf : WellFormed True s) (old : stamp ≤ s.clock) {p : Nat}
    (found : s'.table k = some p) (here : s'.stamp p = stamp) :
    s.table k = some p ∧ s.stamp p = stamp ∧ s'.content p = s.content p := by
  rcases ren.table trivial k p found with before | fresh
  · rcases ren.content trivial p (wf.old k p before) with ⟨same, content⟩ | fresh
    · exact ⟨before, same ▸ here, content⟩
    · omega
  · omega

theorem alive_of_alive (ren : Renews True t s s') (wf : WellFormed True s) (old : stamp ≤ s.clock)
    (alive : Alive s' k stamp) : Alive s k stamp := by
  obtain ⟨p, found, here⟩ := alive
  obtain ⟨before, stamp, -⟩ := ren.alive wf old found here
  exact ⟨p, before, stamp⟩

theorem stands (ren : Renews True t s s') (wf : WellFormed True s)
    (stands : Stands s k stamp content) :
    Stands s' k stamp content where
  stamped := Nat.le_trans stands.stamped (ren.clock trivial)
  content := by
    intro p found here
    obtain ⟨before, stamp, same⟩ := ren.alive wf stands.stamped found here
    exact same.trans (stands.content p before stamp)

end Renews

theorem Dated.stands {s : Store κ α} {p : Nat} (dated : Dated s p) :
    Stands s (s.key p) (s.stamp p) (s.content p) where
  stamped := dated.stamped
  content := by
    intro q found here
    rcases dated.apart with inside | apart
    · rw [inside] at found
      obtain rfl := Option.some.inj found
      rfl
    · exact absurd here (apart q found)

end Stamped
