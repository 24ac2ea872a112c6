import Mathlib.Logic.Basic

/-!
# Runs of a system with fallible steps

A system is a function from a state and an input to the next state or an error.
A run feeds it a list of inputs. `Throughout` says that a property holds in each
state a run goes through, `Always` that moreover the run returns, and `Meets`
that each step is taken in a state in which a condition holds of it.
-/

namespace Transition

variable {σ ι ε : Type} {step : σ → ι → Except ε σ} {P Q : σ → Prop} {cond cond' : σ → ι → Prop}

/-- The state after a list of inputs. -/
def run (step : σ → ι → Except ε σ) : σ → List ι → Except ε σ
  | s, [] => .ok s
  | s, i :: is =>
    match step s i with
    | .error e => .error e
    | .ok s' => run step s' is

/-- Every step is taken where the condition holds of it. -/
def Meets (step : σ → ι → Except ε σ) (cond : σ → ι → Prop) : σ → List ι → Prop
  | _, [] => True
  | s, i :: is => cond s i ∧ ∀ s', step s i = .ok s' → Meets step cond s' is

/-- Every step returns, and the property holds before and after each of them. -/
def Always (step : σ → ι → Except ε σ) (P : σ → Prop) : σ → List ι → Prop
  | s, [] => P s
  | s, i :: is => P s ∧ ∃ s', step s i = .ok s' ∧ Always step P s' is

/-- The property holds before and after each step that is taken. -/
def Throughout (step : σ → ι → Except ε σ) (P : σ → Prop) : σ → List ι → Prop
  | s, [] => P s
  | s, i :: is => P s ∧ ∀ s', step s i = .ok s' → Throughout step P s' is

variable {s : σ}

theorem run_cons {s' : σ} {i : ι} (ran : step s i = .ok s') (is : List ι) :
    run step s (i :: is) = run step s' is := by
  rw [run, ran]

/-- A run in two parts, whether or not the first of them returns. -/
theorem run_append_bind (s : σ) (is js : List ι) :
    run step s (is ++ js) = (run step s is).bind fun t => run step t js := by
  induction is generalizing s with
  | nil => rfl
  | cons i is ih =>
    rw [List.cons_append, run, run]
    cases step s i with
    | error e => rfl
    | ok s' => exact ih s'

variable {t : σ} {is : List ι}

theorem run_append (ran : run step s is = .ok t) (js : List ι) :
    run step s (is ++ js) = run step t js := by
  rw [run_append_bind, ran]
  rfl

/-- A run stops in between. -/
theorem run_split {u : σ} {js : List ι} (ran : run step s (is ++ js) = .ok u) :
    ∃ t, run step s is = .ok t ∧ run step t js = .ok u := by
  rw [run_append_bind] at ran
  cases first : run step s is with
  | error e =>
    rw [first] at ran
    cases ran
  | ok t =>
    rw [first] at ran
    exact ⟨t, rfl, ran⟩

theorem run_cons_split {i : ι} (ran : run step s (i :: is) = .ok t) :
    ∃ s', step s i = .ok s' ∧ run step s' is = .ok t := by
  cases stepped : step s i with
  | error e =>
    rw [run, stepped] at ran
    cases ran
  | ok s' => exact ⟨s', rfl, (run_cons stepped is).symm.trans ran⟩

/-- The steps of a run that goes on meet the condition, too. -/
theorem Meets.of_append {js : List ι} (meets : Meets step cond s (is ++ js))
    (ran : run step s is = .ok t) : Meets step cond s is ∧ Meets step cond t js := by
  induction is generalizing s with
  | nil =>
    cases ran
    exact ⟨trivial, meets⟩
  | cons i is ih =>
    obtain ⟨permitted, rest⟩ := meets
    obtain ⟨s', stepped, ran⟩ := run_cons_split ran
    obtain ⟨first, second⟩ := ih (rest s' stepped) ran
    refine ⟨⟨permitted, fun s'' again => ?_⟩, second⟩
    obtain rfl := Except.ok.inj (stepped.symm.trans again)
    exact first

theorem Meets.and (first : Meets step cond s is)
    (second : Meets step cond' s is) : Meets step (fun s i => cond s i ∧ cond' s i) s is := by
  induction is generalizing s with
  | nil => exact trivial
  | cons i is ih => exact ⟨⟨first.1, second.1⟩, fun s' ran => ih (first.2 s' ran) (second.2 s' ran)⟩

theorem Meets.of_invariant (keep : ∀ s i s', P s → cond s i → step s i = .ok s' → P s')
    (gives : ∀ s i, P s → cond s i → cond' s i) (start : P s)
    (meets : Meets step cond s is) : Meets step cond' s is := by
  induction is generalizing s with
  | nil => exact trivial
  | cons i is ih =>
    obtain ⟨permitted, rest⟩ := meets
    exact ⟨gives s i start permitted, fun s' ran =>
      ih (keep s i s' start permitted ran) (rest s' ran)⟩

/-- An invariant that every permitted step establishes again holds all along
the run. -/
theorem always_of_invariant (keep : ∀ s i, P s → cond s i → ∃ s', step s i = .ok s' ∧ P s')
    (start : P s) (meets : Meets step cond s is) : Always step P s is := by
  induction is generalizing s with
  | nil => exact start
  | cons i is ih =>
    obtain ⟨permitted, rest⟩ := meets
    obtain ⟨s', ran, next⟩ := keep s i start permitted
    exact ⟨start, s', ran, ih next (rest s' ran)⟩

theorem run_of_invariant (keep : ∀ s i, P s → cond s i → ∃ s', step s i = .ok s' ∧ P s')
    (start : P s) (meets : Meets step cond s is) : ∃ t, run step s is = .ok t ∧ P t := by
  induction is generalizing s with
  | nil => exact ⟨s, rfl, start⟩
  | cons i is ih =>
    obtain ⟨permitted, rest⟩ := meets
    obtain ⟨s', ran, next⟩ := keep s i start permitted
    rw [run_cons ran]
    exact ih next (rest s' ran)

/-- The same for runs that may stop with an error. -/
theorem throughout_of_invariant (keep : ∀ s i s', P s → cond s i → step s i = .ok s' → P s')
    (start : P s) (meets : Meets step cond s is) : Throughout step P s is := by
  induction is generalizing s with
  | nil => exact start
  | cons i is ih =>
    obtain ⟨permitted, rest⟩ := meets
    exact ⟨start, fun s' ran => ih (keep s i s' start permitted ran) (rest s' ran)⟩

theorem holds_of_run (keep : ∀ s i s', P s → cond s i → step s i = .ok s' → P s')
    (start : P s) (meets : Meets step cond s is) (ran : run step s is = .ok t) :
    P t := by
  induction is generalizing s with
  | nil =>
    cases ran
    exact start
  | cons i is ih =>
    obtain ⟨permitted, rest⟩ := meets
    obtain ⟨s', stepped, ran⟩ := run_cons_split ran
    exact ih (keep s i s' start permitted stepped) (rest s' stepped) ran

variable {I : σ → Prop}

/-- Where a measure falls with each step of some kind until a property holds for good,
enough such steps establish the property. -/
theorem settles {R : σ → Prop} {μ : σ → Nat} {kind : ι → Prop}
    (keep : ∀ s i s', I s → cond s i → step s i = .ok s' → I s')
    (stay : ∀ s i s', I s → R s → cond s i → step s i = .ok s' → R s')
    (fall : ∀ s i s', I s → cond s i → kind i → step s i = .ok s' → R s ∨ μ s' < μ s)
    (start : I s) (meets : Meets step cond s is) (kinds : ∀ i ∈ is, kind i)
    (ran : run step s is = .ok t) (enough : μ s < is.length) : R t := by
  induction is generalizing s with
  | nil => exact absurd enough (Nat.not_lt_zero _)
  | cons i is ih =>
    obtain ⟨permitted, rest⟩ := meets
    obtain ⟨s', stepped, ran⟩ := run_cons_split ran
    have next := keep s i s' start permitted stepped
    obtain done | less := fall s i s' start permitted (kinds i List.mem_cons_self) stepped
    · have both : ∀ u j u', I u ∧ R u → cond u j → step u j = .ok u' → I u' ∧ R u' :=
        fun u j u' holds permitted stepped =>
          ⟨keep u j u' holds.1 permitted stepped, stay u j u' holds.1 holds.2 permitted stepped⟩
      exact (holds_of_run both ⟨next, stay s i s' start done permitted stepped⟩
        (rest s' stepped) ran).2
    · rw [List.length_cons] at enough
      exact ih next (rest s' stepped) (fun j mem => kinds j (List.mem_cons_of_mem i mem))
        ran (by omega)

/-- Whether the steps of a run meet a condition can be found out by running it. -/
instance Meets.decidable [∀ s i, Decidable (cond s i)] (s : σ) (is : List ι) :
    Decidable (Meets step cond s is) :=
  match is with
  | [] => isTrue trivial
  | i :: is =>
    match stepped : step s i with
    | .error e => decidable_of_iff (cond s i)
        ⟨fun permitted => ⟨permitted, fun s' ran => by rw [stepped] at ran; cases ran⟩, And.left⟩
    | .ok s' =>
      have : Decidable (Meets step cond s' is) := Meets.decidable s' is
      decidable_of_iff (cond s i ∧ Meets step cond s' is)
        ⟨fun both => ⟨both.1, fun s'' ran => by
          rw [stepped] at ran
          cases ran
          exact both.2⟩, fun meets => ⟨meets.1, meets.2 s' stepped⟩⟩

theorem Throughout.head (throughout : Throughout step P s is) : P s := by
  cases is with
  | nil => exact throughout
  | cons i is => exact throughout.1

/-- Where a property follows from an invariant that exactly the permitted steps keep, it
holds all along a run exactly if every step is permitted. -/
theorem throughout_iff_meets (returns : ∀ s i, I s → ∃ s', step s i = .ok s')
    (holds : ∀ s, I s → P s) (keep : ∀ s i s', I s → cond s i → step s i = .ok s' → I s')
    (needed : ∀ s i s', I s → step s i = .ok s' → P s' → cond s i)
    (start : I s) : Throughout step P s is ↔ Meets step cond s is := by
  induction is generalizing s with
  | nil => exact ⟨fun _ => trivial, fun _ => holds s start⟩
  | cons i is ih =>
    constructor
    · rintro ⟨-, later⟩
      obtain ⟨s₁, ran⟩ := returns s i start
      have permitted := needed s i s₁ start ran (later s₁ ran).head
      exact ⟨permitted, fun s' ran =>
        (ih (keep s i s' start permitted ran)).mp (later s' ran)⟩
    · rintro ⟨permitted, later⟩
      exact ⟨holds s start, fun s' ran =>
        (ih (keep s i s' start permitted ran)).mpr (later s' ran)⟩

theorem Always.throughout (always : Always step P s is) : Throughout step P s is := by
  induction is generalizing s with
  | nil => exact always
  | cons i is ih =>
    obtain ⟨here, s', ran, rest⟩ := always
    refine ⟨here, fun s'' again => ?_⟩
    rw [ran] at again
    obtain rfl := Except.ok.inj again
    exact ih rest

/-- The same where a step that is not permitted may also fail: the run returns and the property
holds all along exactly if every step is permitted. -/
theorem always_iff_meets (holds : ∀ s, I s → P s)
    (keep : ∀ s i, I s → cond s i → ∃ s', step s i = .ok s' ∧ I s')
    (needed : ∀ s i s', I s → step s i = .ok s' → P s' → cond s i)
    (start : I s) : Always step P s is ↔ Meets step cond s is := by
  induction is generalizing s with
  | nil => exact ⟨fun _ => trivial, fun _ => holds s start⟩
  | cons i is ih =>
    constructor
    · rintro ⟨-, s', ran, rest⟩
      have permitted := needed s i s' start ran rest.throughout.head
      obtain ⟨s₁, ran₁, next⟩ := keep s i start permitted
      refine ⟨permitted, fun s'' again => ?_⟩
      rw [ran] at ran₁ again
      obtain rfl := Except.ok.inj ran₁
      obtain rfl := Except.ok.inj again
      exact (ih next).mp rest
    · rintro ⟨permitted, later⟩
      obtain ⟨s', ran, next⟩ := keep s i start permitted
      exact ⟨holds s start, s', ran, (ih next).mpr (later s' ran)⟩

/-- A condition on the inputs alone. -/
theorem meets_of_forall {kind : ι → Prop} (all : ∀ i ∈ is, kind i) :
    Meets step (fun _ i => kind i) s is := by
  induction is generalizing s with
  | nil => exact trivial
  | cons i is ih =>
    rw [List.forall_mem_cons] at all
    exact ⟨all.1, fun _ _ => ih all.2⟩

theorem meets_inputs {kind : ι → Prop} (returns : ∀ s i, ∃ s', step s i = .ok s') :
    Meets step (fun _ i => kind i) s is ↔ ∀ i ∈ is, kind i := by
  refine ⟨fun meets => ?_, meets_of_forall⟩
  induction is generalizing s with
  | nil => exact nofun
  | cons i is ih =>
    obtain ⟨s', ran⟩ := returns s i
    exact List.forall_mem_cons.mpr ⟨meets.1, ih (meets.2 s' ran)⟩

section

variable {κ : Type} {step' : σ → κ → Except ε σ} {f : ι → κ}

/-- A system takes the steps of another one under other names. -/
theorem run_map (same : ∀ s i, step' s (f i) = step s i) :
    run step' s (is.map f) = run step s is := by
  induction is generalizing s with
  | nil => rfl
  | cons i is ih => simp only [List.map_cons, run, same, ih]

theorem meets_map {cond : σ → κ → Prop} (same : ∀ s i, step' s (f i) = step s i) :
    Meets step' cond s (is.map f) ↔ Meets step (fun s i => cond s (f i)) s is := by
  induction is generalizing s with
  | nil => rfl
  | cons i is ih => simp only [List.map_cons, Meets, same, ih]

theorem throughout_map (same : ∀ s i, step' s (f i) = step s i) :
    Throughout step' P s (is.map f) ↔ Throughout step P s is := by
  induction is generalizing s with
  | nil => rfl
  | cons i is ih => simp only [List.map_cons, Throughout, same, ih]

end

/-- In particular the property holds where the run ends. -/
theorem Always.of_run (always : Always step P s is) (ran : run step s is = .ok t) : P t := by
  induction is generalizing s with
  | nil =>
    cases ran
    exact always
  | cons i is ih =>
    obtain ⟨-, s', stepped, rest⟩ := always
    rw [run_cons stepped] at ran
    exact ih rest ran

theorem Throughout.mono (weaker : ∀ s, P s → Q s)
    (throughout : Throughout step P s is) : Throughout step Q s is := by
  induction is generalizing s with
  | nil => exact weaker s throughout
  | cons i is ih =>
    obtain ⟨here, rest⟩ := throughout
    exact ⟨weaker s here, fun s' ran => ih (rest s' ran)⟩

theorem Always.mono (weaker : ∀ s, P s → Q s)
    (always : Always step P s is) : Always step Q s is := by
  induction is generalizing s with
  | nil => exact weaker s always
  | cons i is ih =>
    obtain ⟨here, s', ran, rest⟩ := always
    exact ⟨weaker s here, s', ran, ih rest⟩

end Transition
