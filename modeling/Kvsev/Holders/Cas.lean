import Kvsev.Holders.Stamps

/-!
# Compare and swap

A client reads a value with `gets` and stores another one with `cas` and the unique
that came with it. If the `cas` is stored, nobody has changed the value in between:
the unique stands for the value that was read, and an item with it was under the key
all the time. The exception is a `gets` that prints the unique of an item which `incr`
or `decr` has replaced since the lookup.
-/

namespace Kvsev.Holders

open Memory Server Transition Stamped

/-- The value under a key. -/
def valueOf (s : State) (key : Key) : Option (List UInt8) :=
  (s.assoc key).map fun p => (s.heap p).data

/-- In its next step the worker answers a `gets` with this unique and value. -/
structure AnswersGets (y : System) (w : Nat) (key : Key) (token : Nat) (value : List UInt8) :
    Prop where
  reading : ∃ p, y.code[w]? = some (.reading (.get true) p) ∧ (y.server.heap p).key = key ∧
    itemGetCas y.server (y.server.heap p) = token ∧ (y.server.heap p).data = value

/-- The worker can now complete an upload of `cas` with this unique, and answers it
with `STORED`. -/
structure AnswersStored (y : System) (w i : Nat) (key : Key) (token : Nat) : Prop where
  idle : y.code[w]? = some .idle
  upload : ∃ u, y.uploads[i]? = some u ∧ u.comm = .cas ∧ u.req.setStale = false ∧
    u.req.key = key ∧ u.req.cas = token ∧ endsLine (y.server.heap u.item).data = true ∧
    (doStoreItem y.server u.item .cas false u.req.copy).1 = .stored

/-- No `incr` or `decr` comes between the lookup of a `gets` and its answer, as far as
the item it has found is concerned. -/
def SparesGets (y : System) (e : Event) : Prop :=
  ∀ (w : Nat) (pc : Pc) (p : ItemPtr), y.code[w]? = some pc →
    pc.reader = some (.get true, p) → ¬(targets y e).replaced p

/-- Uniques do not wrap around, and `gets` is not overtaken. -/
structure Careful (y : System) (e : Event) : Prop where
  room : y.server.casId + 1 < 2 ^ 64
  spared : SparesGets y e

/-! ## What `gets` has found -/

/-- What a `gets` has found is dated. -/
structure Current (y : System) : Prop extends Sound True y where
  readers : ∀ (w : Nat) (pc : Pc) (p : ItemPtr), y.code[w]? = some pc →
    pc.reader = some (.get true, p) → p < y.server.next ∧ Dated (itemStore y.server) p

theorem dated_of_found {s : State} (wf : Tokened True s) {key : Key} {p : ItemPtr}
    (found : s.assoc key = some p) : Dated (itemStore s) p where
  stamped := wf.stamped trivial key p found
  apart := by
    have own : (s.heap p).key = key := wf.key key p found
    exact .inl (by rw [show (itemStore s).key p = key from own]; exact found)

theorem targets_replaced {y : System} {e : Event} {p : ItemPtr}
    (replaced : (targets y e).replaced p) : ∃ w command, e = .command w command := by
  cases e with
  | command w command => exact ⟨w, command, rfl⟩
  | _ => exact replaced.elim

namespace Current

variable {y y' z : System} {e : Event}

theorem init {settings : Settings} (useCas : settings.useCas = true) (workers : Nat) :
    Current (System.init settings workers) where
  toSound := Sound.init (fun _ => useCas) workers
  readers := by
    intro w pc p here reads
    simp only [System.init, List.getElem?_replicate] at here
    split at here
    · cases here
      cases reads
    · cases here

theorem step (current : Current y) (careful : Careful y e) (ran : step y e = .ok y') :
    Current y' := by
  have ren := current.toSound.renewed (fun _ => careful.room) ran
  refine ⟨current.toSound.step (fun _ => careful.room) ran, ?_⟩
  have kept : ∀ p, p < y.server.next → ¬(targets y e).replaced p → Dated (itemStore y.server) p →
      p < y'.server.next ∧ Dated (itemStore y'.server) p := fun p lt spared dated =>
    ⟨Nat.lt_of_lt_of_le lt ren.renews.next, ren.renews.dated trivial p lt spared dated⟩
  intro w pc p here reads
  by_cases replaced : (targets y e).replaced p
  · -- Commands under the lock leave the workers where they are.
    obtain ⟨w', command, rfl⟩ := targets_replaced replaced
    have same : y'.code = y.code := by
      cases next_of_step ran with
      | _ => rfl
    rw [same] at here
    exact absurd replaced (careful.spared w pc p here reads)
  · rcases step_acquires ran here reads with
      ⟨pc₀, before, reading⟩ | ⟨key, found⟩
    · obtain ⟨lt, dated⟩ := current.readers w pc₀ p before reading
      exact kept p lt replaced dated
    · exact kept p (current.tokened.old key p found) replaced
        (dated_of_found current.tokened found)

end Current

/-! ## From `gets` to `cas` -/

theorem value_of_alive {s : State} {key : Key} {token : Nat} {value : List UInt8}
    (stands : Stands (itemStore s) key token value) (alive : Alive (itemStore s) key token) :
    valueOf s key = some value := by
  obtain ⟨p, found, stamp⟩ := alive
  have content : (s.heap p).data = value := stands.content p found stamp
  have here : s.assoc key = some p := found
  rw [valueOf, here, Option.map_some, content]

/-- Where an item with the unique is left in the end, it was there all the time. -/
theorem throughout_of_alive {y z : System} {key : Key} {token : Nat} {value : List UInt8}
    {events : List Event} (sound : Sound True y)
    (stands : Stands (itemStore y.server) key token value) (careful : Meets step Careful y events)
    (ran : run step y events = .ok z) (alive : Alive (itemStore z.server) key token) :
    Alive (itemStore y.server) key token ∧
      Throughout step (fun x => valueOf x.server key = some value) y events := by
  induction events generalizing y with
  | nil =>
    cases ran
    exact ⟨alive, value_of_alive stands alive⟩
  | cons e events ih =>
    obtain ⟨here, rest⟩ := careful
    obtain ⟨y₁, stepped⟩ := step_returns y e
    rw [run_cons stepped] at ran
    have ren := sound.renewed (fun _ => here.room) stepped
    obtain ⟨alive₁, later⟩ := ih (sound.step (fun _ => here.room) stepped)
      (ren.renews.stands sound.tokened stands) (rest y₁ stepped) ran
    have alive₀ := ren.renews.alive_of_alive sound.tokened stands.stamped alive₁
    refine ⟨alive₀, value_of_alive stands alive₀, fun y' again => ?_⟩
    rw [stepped] at again
    obtain rfl := Except.ok.inj again
    exact later

/-- `STORED` means that the unique was compared with that of the item in the table. -/
theorem alive_of_stored {s : State} {p : ItemPtr} {copy : CopyInput}
    (useCas : s.settings.useCas = true) (stored : (doStoreItem s p .cas false copy).1 = .stored) :
    Alive (itemStore s) (s.heap p).key (s.heap p).cas := by
  have found := doItemGet_fst s (s.heap p).key false
  simp only [doStoreItem] at stored
  cases live : liveItem s (s.heap p).key with
  | none =>
    rw [live] at found
    rcases ran : doItemGet s (s.heap p).key false with ⟨got, s₁⟩
    rw [ran] at found stored
    obtain rfl := found
    cases stored
  | some old =>
    obtain ⟨here, -⟩ := doItemGet_some (found.trans live)
    rw [doItemGet_of_live live] at stored
    have cas : ∀ q, ((refcountIncr s old).heap q).cas = (s.heap q).cas := by
      intro q
      by_cases same : q = old
      · rw [same, refcountIncr, State.modify_heap_self]
      · rw [refcountIncr, State.modify_heap_of_ne _ same]
    refine ⟨old, here, Eq.symm ?_⟩
    by_contra different
    have failed : casResult (refcountIncr s old) ((refcountIncr s old).heap p)
        ((refcountIncr s old).heap old) false ∈ [CasResult.none, .badval] := by
      have ne : ¬(s.heap p).cas = (s.heap old).cas := different
      simp only [casResult, itemGetCas, refcountIncr, State.modify_settings, useCas, if_true]
      rw [← refcountIncr, cas, cas, if_neg ne]
      split
      · simp
      · simp
    simp only [storeExisting] at stored
    generalize casResult (refcountIncr s old) ((refcountIncr s old).heap p)
        ((refcountIncr s old).heap old) false = res at failed stored
    cases res with
    | none | badval => cases stored
    | «match» | stale => simp at failed

/-- If a `cas` with the unique of an earlier `gets` is stored, the key had the value
that `gets` has answered in every state in between. -/
theorem stored_cas_unchanged (settings : Settings) (useCas : settings.useCas = true) (workers : Nat)
    (before after : List Event) {y z : System} {w w' i : Nat} {key : Key} {token : Nat}
    {value : List UInt8} (reached : run step (System.init settings workers) before = .ok y)
    (gets : AnswersGets y w key token value) (later : run step y (.advance w :: after) = .ok z)
    (stored : AnswersStored z w' i key token)
    (careful : Meets step Careful (System.init settings workers) (before ++ .advance w :: after)) :
    Throughout step (fun x => valueOf x.server key = some value) y (.advance w :: after) := by
  obtain ⟨first, second⟩ := careful.of_append reached
  have current := holds_of_run (fun _ _ _ current careful ran => Current.step current careful ran)
    (Current.init useCas workers) first reached
  obtain ⟨p, reading, rfl, rfl, rfl⟩ := gets.reading
  obtain ⟨lt, dated⟩ := current.readers w _ p reading rfl
  have sound : Sound True z := holds_of_run (P := Sound True)
    (fun _ _ _ sound (careful : Careful _ _) ran => Sound.step sound (fun _ => careful.room) ran)
    current.toSound second later
  obtain ⟨u, here, -, -, key, cas, -, stored⟩ := stored.upload
  have mine := sound.uploading.mine u (List.mem_of_getElem? here)
  have alive := alive_of_stored (sound.useCas trivial) stored
  rw [mine.key, mine.cas trivial, key, cas, itemGetCas, if_pos (current.useCas trivial)] at alive
  exact (throughout_of_alive current.toSound dated.stands second later alive).2

/-- One worker has stored a number, and has looked it up for a `gets`. -/
def lookedUp : List Event :=
  [.upload 0 .text .set (plainRequest [110] [53, 13, 10]), .complete 0 0, .advance 0,
    .lookup 0 (.get true) [110] none .none, .advance 0]

/-- Another one uploads a value for a `cas` with the given unique. -/
def swapping (token : Nat) : List Event :=
  [.upload 1 .text .cas { plainRequest [110] [57, 13, 10] with cas := token }]

/-- Where uniques are few and nobody counts, the steps are careful. -/
theorem careful_of_quiet {y : System} {e : Event} (few : y.server.casId < 1000)
    (quiet : ∀ p, ¬(targets y e).replaced p) : Careful y e where
  room := Nat.lt_trans (Nat.succ_lt_succ few) (by decide)
  spared := fun _ _ p _ _ => quiet p

theorem stored_cas_unchanged_sample :
    ∃ y, run step (System.init defaultSettings 2) lookedUp = .ok y ∧
      Throughout step (fun x => valueOf x.server [110] = some [53, 13, 10]) y
        (.advance 0 :: swapping 1) := by
  obtain ⟨y, z, reached, gets, later, stored⟩ :
      ∃ y z, run step (System.init defaultSettings 2) lookedUp = .ok y ∧
        AnswersGets y 0 [110] 1 [53, 13, 10] ∧ run step y (.advance 0 :: swapping 1) = .ok z ∧
        AnswersStored z 1 0 [110] 1 :=
    ⟨_, _, rfl, ⟨0, rfl, rfl, rfl, rfl⟩, rfl, ⟨rfl, _, rfl, rfl, rfl, rfl, rfl, rfl, rfl⟩⟩
  refine ⟨y, reached, stored_cas_unchanged defaultSettings rfl 2 lookedUp (swapping 1) reached gets
    later stored ?_⟩
  refine ⟨careful_of_quiet (by decide) fun _ none => none, ?_⟩
  rintro y₁ ⟨⟩
  refine ⟨careful_of_quiet (by decide) fun _ none => none, ?_⟩
  rintro y₂ ⟨⟩
  refine ⟨careful_of_quiet (by decide) fun _ none => none, ?_⟩
  rintro y₃ ⟨⟩
  refine ⟨careful_of_quiet (by decide) fun _ none => none, ?_⟩
  rintro y₄ ⟨⟩
  refine ⟨careful_of_quiet (by decide) fun _ none => none, ?_⟩
  rintro y₅ ⟨⟩
  refine ⟨careful_of_quiet (by decide) fun _ none => none, ?_⟩
  rintro y₆ ⟨⟩
  exact ⟨careful_of_quiet (by decide) fun _ none => none, fun _ _ => trivial⟩

/-- The other worker increments the number. -/
def incrementing : Event :=
  .command 1 (.arithmetic ⟨[110], true, 1, 0, false, (plainRequest [] []).alloc⟩)

/-- `incr` replaces the number a `gets` has found, and the `gets` answers with the old
number and the unique of the new one. A `cas` with that unique is stored, and the
increment is lost. -/
theorem incremented_swapped :
    ∃ y z, run step (System.init defaultSettings 2) (lookedUp ++ [incrementing]) = .ok y ∧
      AnswersGets y 0 [110] 2 [53, 13, 10] ∧ run step y (.advance 0 :: swapping 2) = .ok z ∧
      AnswersStored z 1 0 [110] 2 ∧ valueOf y.server [110] = some [54, 13, 10] ∧
      valueOf z.server [110] = some [54, 13, 10] := by
  have facts : (do
      let y ← run step (System.init defaultSettings 2) (lookedUp ++ [incrementing])
      let z ← run step y (.advance 0 :: swapping 2)
      return (decide (y.code[0]? = some (.reading (.get true) 0) ∧ (y.server.heap 0).key = [110] ∧
          itemGetCas y.server (y.server.heap 0) = 2 ∧ (y.server.heap 0).data = [53, 13, 10]),
        decide (z.code[1]? = some .idle),
        z.uploads[0]?.map fun u => decide (u.comm = .cas ∧ u.req.setStale = false ∧
          u.req.key = [110] ∧ u.req.cas = 2 ∧ endsLine (z.server.heap u.item).data = true ∧
          (doStoreItem z.server u.item .cas false u.req.copy).1 = .stored),
        decide (valueOf y.server [110] = some [54, 13, 10] ∧
          valueOf z.server [110] = some [54, 13, 10]))) =
      (.ok (true, true, some true, true) : Exec _) := by
    decide +kernel
  obtain ⟨y, reached, facts⟩ := Exec.bind_eq_ok.mp facts
  obtain ⟨z, later, facts⟩ := Exec.bind_eq_ok.mp facts
  simp only [Exec.pure_eq_ok, Except.ok.injEq, Prod.mk.injEq, decide_eq_true_eq,
    Option.map_eq_some_iff] at facts
  obtain ⟨reading, idle, ⟨u, upload, request⟩, values⟩ := facts
  exact ⟨y, z, reached, ⟨0, reading⟩, later, ⟨idle, u, upload, request⟩, values⟩

end Kvsev.Holders
