import Kvsev.Holders.Exact

/-!
# The count has 16 bits

A response keeps a reference until it is sent, and nobody limits how many responses
are waiting. `limited_get` gives an item back when its count has gone beyond a limit
that leaves some room below `2 ^ 16`; the binary protocol does not ask. Were its
commands limited as well, the references of responses would stay within the limit,
and all others are bounded by the number of workers and of queued bumps.
-/

namespace Kvsev.Holders

open Server Transition Counted

/-- No increment has gone beyond what `refcount` can hold. -/
def NeverWrapped (y : System) : Prop := ∀ p < y.server.next, (y.server.heap p).peak < 2 ^ 16

/-- The binary protocol goes on only where `limited_get` would. -/
def Limited (y : System) : Event → Prop
  | .advance w =>
    match y.code[w]? with
    | some (.found .binary p) => (y.server.heap p).refcount ≤ itRefcountLimit
    | _ => True
  | _ => True

instance (y : System) : (e : Event) → Decidable (Limited y e)
  | .advance w => by
    dsimp only [Limited]
    generalize y.code[w]? = here
    rcases here with _ | (_ | ⟨_ | _ | _ | _ | _, _⟩ | _ | _ | _ | _ | _ | _ | _ | _)
    all_goals dsimp only; infer_instance
  | .lookup .. | .mget .. | .upload .. | .complete .. | .abandon .. | .command ..
  | .respFinish .. | .bumped .. | .chore .. => isTrue trivial

/-- Workers and queued bumps fit between the limit and the largest count. -/
def Uncrowded (y : System) : Prop :=
  ∀ p, y.code.length + y.bumps.countP (· = p) ≤ 5530

/-- What keeps the counts small. -/
structure Moderate (y : System) (e : Event) : Prop where
  undisturbed : Undisturbed y e
  limited : Limited y e
  uncrowded : Uncrowded y

/-! ## References of responses -/

/-- The command keeps its item for the response. -/
def Reader.answers : Reader → Bool
  | get _ | mget _ | binary => true
  | debug | touch => false

/-- The item of a response that the worker is about to make. -/
def Pc.answer : Pc → Option ItemPtr
  | reading r p => if r.answers then some p else none
  | marking p | setting p _ => some p
  | _ => none

/-- The references of responses, with those that are being made. -/
def answers (y : System) (p : ItemPtr) : Nat :=
  y.server.pending.countP (· = p) + y.code.countP (fun c => c.answer = some p)

variable {p : ItemPtr}

theorem Pc.item_of_answer {pc : Pc} (answer : pc.answer = some p) : pc.item = some p := by
  cases pc with
  | reading r q =>
    simp only [Pc.answer] at answer
    split at answer
    · exact answer
    · cases answer
  | marking q | setting q bits => exact answer
  | _ => cases answer

theorem answers_le_holders (y : System) (p : ItemPtr) : answers y p ≤ holders y p := by
  have : y.code.countP (fun c => c.answer = some p) ≤ y.code.countP (fun c => c.item = some p) :=
    List.countP_mono_left fun c _ answer => by
      simpa using Pc.item_of_answer (by simpa using answer)
  simp only [answers, holders]
  omega

section

variable {y y' : System} {w : Nat} {pc pc' : Pc} {p : ItemPtr}

theorem answers_moveTo (here : y.code[w]? = some pc) (pc' : Pc) (q : ItemPtr) :
    answers (y.moveTo w pc') q + (if pc.answer = some q then 1 else 0) =
      answers y q + if pc'.answer = some q then 1 else 0 := by
  have moved := countP_set (f := fun c : Pc => c.answer = some q) here pc'
  simp only [decide_eq_true_eq] at moved
  simp only [answers, System.moveTo]
  omega

theorem answers_congr (pending : y'.server.pending = y.server.pending)
    (code : y'.code = y.code) : answers y' = answers y := by
  funext q
  simp only [answers, pending, code]

/-- A worker that comes to where it makes no response. -/
theorem answers_moveTo_le (here : y.code[w]? = some pc) (silent : pc'.answer = none)
    (q : ItemPtr) : answers (y.moveTo w pc') q ≤ answers y q := by
  have moved := answers_moveTo here pc' q
  rw [silent] at moved
  simp only [reduceCtorEq, if_false] at moved
  omega

/-- The response takes the place of the worker that made it. -/
theorem answers_respond (here : y.code[w]? = some pc) (full : pc.answer = some p) (q : ItemPtr) :
    answers (y.respond w p) q = answers y q := by
  have moved := answers_moveTo here .idle q
  rw [full] at moved
  simp only [Pc.answer, reduceCtorEq, if_false, Option.some.injEq] at moved
  simp only [answers, System.moveTo, System.respond, List.countP_append, List.countP_singleton,
    decide_eq_true_eq] at moved ⊢
  omega

theorem answers_pending (pending : y'.server.pending = y.server.pending ++ [p])
    (code : y'.code = y.code) : answers y' = more (answers y) p := by
  funext q
  simp only [answers, more, pending, code, List.countP_append, List.countP_singleton,
    decide_eq_true_eq, eq_comm (a := q)]
  omega

end

theorem setExptime_pending (s : State) (p : ItemPtr) (touch : Option Nat) :
    (setExptime s p touch).pending = s.pending := by
  cases touch with
  | none | some exptime => rfl

theorem doItemBump_pending (s : State) (bumps : List ItemPtr) (p : ItemPtr) (bump : Bump) :
    (doItemBump s bumps p bump).1.pending = s.pending := by
  cases bump with
  | _ => rfl

/-- Responses refer to no item more often than the limit says. -/
def Bounded (y : System) : Prop := ∀ p, answers y p ≤ itRefcountLimit

namespace Bounded

variable {limit : Nat} {y y' : System} {w : Nat} {p : ItemPtr} {pc pc' : Pc}

section

variable (bounded : Bounded y)

include bounded

theorem of_same (pending : y'.server.pending = y.server.pending)
    (code : y'.code = y.code) : Bounded y' := by
  intro q
  rw [answers_congr pending code]
  exact bounded q

theorem moveTo (here : y.code[w]? = some pc) (silent : pc'.answer = none) :
    Bounded (y.moveTo w pc') :=
  fun q => Nat.le_trans (answers_moveTo_le here silent q) (bounded q)

/-- The same, while the server changes. -/
theorem moved (here : y.code[w]? = some pc) (silent : pc'.answer = none)
    (pending : y'.server.pending = y.server.pending) (code : y'.code = y.code.set w pc') :
    Bounded y' :=
  (bounded.moveTo here silent).of_same pending code

theorem keep (here : y.code[w]? = some pc) (same : pc'.answer = pc.answer) :
    Bounded (y.moveTo w pc') := by
  intro q
  have moved := answers_moveTo here pc' q
  rw [same] at moved
  have := bounded q
  omega

theorem respond (here : y.code[w]? = some pc) (full : pc.answer = some p) :
    Bounded (y.respond w p) := by
  intro q
  rw [answers_respond here full]
  exact bounded q

/-- One more response for an item with few holders. -/
theorem answered (pending : y'.server.pending = y.server.pending ++ [p])
    (code : y'.code = y.code) (few : holders y p < itRefcountLimit) : Bounded y' := by
  intro q
  rw [answers_pending pending code]
  by_cases same : q = p
  · subst same
    rw [more_self]
    exact Nat.lt_of_le_of_lt (answers_le_holders y q) few
  · rw [more_of_ne _ same]
    exact bounded q

/-- A hit of `mg` under the lock. -/
theorem mgetFound {s : State} (pending : s.pending = y.server.pending)
    (few : holders y p < itRefcountLimit) (created : Bool) (flags : List MetaFlag)
    (input : MetaInput) (bump : Bump) :
    Bounded (mgetFound { y with server := s } p created flags input bump) := by
  simp only [Holders.mgetFound]
  split
  · exact bounded.of_same pending rfl
  · refine bounded.answered ?_ rfl few
    rw [doItemBump_pending, ← pending]
    rfl

section

variable (inv : Inv limit y) (room : ∀ q, holders y q + 2 ≤ limit)
  (idle : y.code[w]? = some .idle)

include inv room

include idle in
theorem lookup (r : Reader) (key : Key) (touch : Option Nat) (bump : Bump) :
    Bounded (lookup y w r key touch bump) := by
  simp only [Holders.lookup]
  rcases ran : doItemGet y.server key false with ⟨_ | p, s₁⟩
  · obtain ⟨⟨-, leaves⟩, -⟩ := inv.accounted.doItemGet_miss room ran
    exact bounded.of_same leaves.pending rfl
  · obtain ⟨⟨-, leaves⟩, -⟩ := inv.accounted.doItemGet_hit room ran
    refine bounded.moved idle (show (Pc.found r p).answer = none from rfl) ?_ rfl
    rw [setExptime_pending, doItemBump_pending]
    exact leaves.pending

theorem mgetLocked (key : Key) (flags : List MetaFlag) (input : MetaInput) (bump : Bump) :
    Bounded (mgetLocked y key flags input bump) := by
  simp only [Holders.mgetLocked]
  rcases ran : doItemGet y.server key false with ⟨_ | p, s₁⟩
  · obtain ⟨⟨-, leaves⟩, -⟩ := inv.accounted.doItemGet_miss room ran
    dsimp only
    split
    · rcases alloc : doItemAlloc s₁ key 0 0 2 input.alloc with ⟨_ | p, s₂⟩
      · obtain rfl := doItemAlloc_none alloc
        exact bounded.of_same leaves.pending rfl
      obtain ⟨-, left, -, rfl, -, -⟩ := doItemAlloc_some alloc
      have fresh : holders y s₁.next = 0 :=
        inv.exactReferences.allocated _ leaves.next
      have made : LeavesFree (fun _ => False) s₁ s₂ := LeavesFree.doItemAlloc alloc
      have few : holders y s₁.next < itRefcountLimit := by rw [fresh]; decide
      have same : (doItemLink (s₂.modify s₁.next fun it =>
          { it with data := [13, 10] }) s₁.next).pending = y.server.pending :=
        made.pending.trans leaves.pending
      exact bounded.mgetFound same few true flags input bump
    · exact bounded.of_same leaves.pending rfl
  · obtain ⟨⟨acc₁, leaves⟩, linked, -⟩ := inv.accounted.doItemGet_hit room ran
    dsimp only
    split
    · exact bounded.of_same leaves.pending rfl
    · rename_i few
      have count := acc₁.refcount_eq
        (acc₁.lt_of_held (by rw [more_self]; exact Nat.succ_pos _))
      rw [linked, more_self] at count
      exact bounded.mgetFound leaves.pending (by simp at count; omega) false flags input bump

include idle

theorem mget (key : Key) (flags : List MetaFlag) (input : MetaInput) (bump : Bump) :
    Bounded (mget y w key flags input bump) := by
  simp only [Holders.mget]
  split
  · exact bounded
  · split
    · exact bounded.mgetLocked inv room key flags input bump
    · exact bounded.lookup inv room idle (.mget flags) key none bump

theorem upload (protocol : Protocol) (comm : Nread) (req : StoreRequest) :
    Bounded (upload y w protocol comm req) := by
  refine upload_rule bounded ?_ (fun key => ?_) fun _ => bounded.moveTo idle rfl
  · intro req data item s comm ran
    obtain ⟨-, -, -, leaves⟩ := inv.accounted.uploadItem ran
    exact bounded.of_same leaves.pending rfl
  · have dropped := inv.accounted.getAndDrop room key
    exact bounded.of_same dropped.2.pending rfl

theorem complete (i : Nat) : Bounded (complete y w i) := by
  simp only [Holders.complete]
  cases here : y.uploads[i]? with
  | none => exact bounded
  | some u =>
    dsimp only
    split
    · exact bounded.moved idle rfl rfl rfl
    · have mem := List.mem_of_getElem? here
      have stored := inv.accounted.doStoreItem u.comm u.req.setStale u.req.copy
        (Inv.holders_pos_of_upload mem) (inv.free u mem) room
      exact bounded.moved idle rfl stored.2.pending rfl

end

theorem abandon (idle : y.code[w]? = some .idle) (i : Nat) : Bounded (abandon y w i) := by
  simp only [Holders.abandon]
  cases here : y.uploads[i]? with
  | none => exact bounded
  | some u => exact bounded.moved idle rfl rfl rfl

/-- A command that goes on below the limit. -/
theorem reading (inv : Inv limit y) {r : Reader} (here : y.code[w]? = some (.found r p))
    (few : (y.server.heap p).refcount ≤ itRefcountLimit) : Bounded (y.moveTo w (.reading r p)) := by
  have count := inv.accounted.refcount_eq (inv.accounted.lt_of_held
    (Inv.holders_pos_of_code here rfl))
  have account := holders_keep here (show (Pc.reading r p).item = _ from rfl)
  intro q
  by_cases same : q = p
  · have le := answers_le_holders (y.moveTo w (.reading r p)) q
    rw [account, same] at le
    rw [same]
    omega
  have moved := answers_moveTo here (.reading r p) q
  have other : (Pc.reading r p).answer ≠ some q :=
    fun answer => same (Option.some.inj (Pc.item_of_answer answer)).symm
  rw [if_neg other] at moved
  have := bounded q
  omega

end

theorem read {r : Reader} (bounded : Bounded y) (here : y.code[w]? = some (.reading r p)) :
    Bounded (read y w r p) := by
  cases r with
  | get returnCas | binary => exact bounded.respond here rfl
  | debug | touch => exact bounded.moveTo here rfl
  | mget flags =>
    simp only [Holders.read]
    split
    · exact bounded.moveTo here rfl
    · split
      · exact bounded.keep here rfl
      · exact bounded.respond here rfl

/-- Whoever makes a response has met the limit, if it was only by luck. -/
theorem passed (bounded : Bounded y) (inv : Inv limit y) {r : Reader}
    (here : y.code[w]? = some (.found r p))
    (below : r.limited = true → (y.server.heap p).refcount ≤ itRefcountLimit)
    (cond : Limited y (.advance w)) : Bounded (y.moveTo w (.reading r p)) := by
  simp only [Limited, here] at cond
  cases r with
  | get returnCas | mget flags => exact bounded.reading inv here (below rfl)
  | binary => exact bounded.reading inv here cond
  | debug | touch => exact bounded.moveTo here rfl

theorem clearing {key : Key} (bounded : Bounded y) (inv : Inv limit y)
    (here : y.code[w]? = some (.clearing key)) (room : ∀ q, holders y q + 2 ≤ limit) :
    Bounded (match doItemGet y.server key false with
      | (none, server) => { y.moveTo w .idle with server }
      | (some p, server) => { y.moveTo w (.unlinking p) with server }) := by
  rcases ran : doItemGet y.server key false with ⟨_ | p, s⟩
  · obtain ⟨⟨-, leaves⟩, -⟩ := inv.accounted.doItemGet_miss room ran
    exact bounded.moved here rfl leaves.pending rfl
  · obtain ⟨⟨-, leaves⟩, -⟩ := inv.accounted.doItemGet_hit room ran
    exact bounded.moved here rfl leaves.pending rfl

theorem advance (bounded : Bounded y) (inv : Inv limit y) (room : ∀ q, holders y q + 2 ≤ limit)
    (cond : Limited y (.advance w)) : Bounded (advance y w) := by
  simp only [Holders.advance]
  cases here : y.code[w]? with
  | none => exact bounded
  | some pc =>
    cases pc with
    | idle => exact bounded
    | found r p =>
      dsimp only
      split
      · exact bounded.moveTo here rfl
      · rename_i below
        exact bounded.passed inv here
          (fun limited => Nat.le_of_not_lt fun above => below ⟨limited, above⟩) cond
    | reading r p => exact bounded.read here
    | marking p => exact bounded.keep here rfl
    | setting p bits =>
      have set : Bounded { y with server := setTokenSent y.server p bits } :=
        bounded.of_same rfl rfl
      exact set.respond here rfl
    | removing p => exact bounded.moved here rfl rfl rfl
    | clearing key => exact bounded.clearing inv here room
    | unlinking p => exact bounded.moved here rfl (doItemUnlink_pending _ p) rfl
    | refusing p => exact bounded.moveTo here rfl
    | decrementing p count => exact bounded.moved here rfl rfl rfl

theorem respFinish (bounded : Bounded y) (i : Nat) : Bounded (respFinish y i) := by
  simp only [Holders.respFinish]
  cases here : y.server.pending[i]? with
  | none => exact bounded
  | some p =>
    intro q
    have fewer : (y.server.pending.eraseIdx i).countP (· = q) ≤ y.server.pending.countP (· = q) :=
      (List.eraseIdx_sublist _ i).countP_le
    have := bounded q
    simp only [answers] at this ⊢
    exact Nat.le_trans (Nat.add_le_add_right fewer _) this

theorem bumped (bounded : Bounded y) (i : Nat) : Bounded (bumped y i) := by
  simp only [Holders.bumped]
  cases here : y.bumps[i]? with
  | none => exact bounded
  | some p => exact bounded.of_same (lruMaintainerBump_pending _ p) rfl

/-- Where the binary protocol meets the limit, too, responses never exceed it. -/
theorem step (bounded : Bounded y) (inv : Inv limit y) (room : ∀ q, holders y q + 3 ≤ limit)
    {e : Event} (cond : Limited y e) (ran : step y e = .ok y') : Bounded y' := by
  have room₂ := Inv.room_two room
  cases next_of_step ran with
  | stay => exact bounded
  | lookup idle r key touch bump => exact bounded.lookup inv room₂ idle r key touch bump
  | mget idle key flags input bump => exact bounded.mget inv room₂ idle key flags input bump
  | upload idle protocol comm req => exact bounded.upload inv room₂ idle protocol comm req
  | complete idle i => exact bounded.complete inv room₂ idle i
  | abandon idle i => exact bounded.abandon idle i
  | command w command => exact bounded.of_same (inv.command_rule room command).2.pending rfl
  | advance w => exact bounded.advance inv room₂ cond
  | respFinish i => exact bounded.respFinish i
  | bumped i => exact bounded.bumped i
  | chore chore => exact bounded.of_same (inv.chore_rule room chore).2.pending rfl

end Bounded

variable {y : System}

theorem uploads_le_one {limit : Nat} (inv : Inv limit y) (p : ItemPtr) :
    y.uploads.countP (fun u => u.item = p) ≤ 1 := by
  have once := List.nodup_iff_count_le_one.mp inv.distinct p
  rw [List.count, List.countP_map] at once
  exact once

/-- All references to an item but the table's. -/
theorem holders_le {limit : Nat} (inv : Inv limit y) (bounded : Bounded y)
    (uncrowded : Uncrowded y) (p : ItemPtr) : holders y p ≤ itRefcountLimit + 5531 := by
  have responses := bounded p
  have workers := y.code.countP_le_length (p := fun c => decide (c.item = some p))
  have others := uncrowded p
  have uploads := uploads_le_one inv p
  simp only [holders, answers] at responses ⊢
  omega

/-! ## Interleavings -/

theorem bounded_init (settings : Settings) (workers : Nat) :
    Bounded (System.init settings workers) := by
  intro p
  have none := answers_le_holders (System.init settings workers) p
  have zero := (Inv.init settings workers 0).exactReferences.allocated p (Nat.zero_le p)
  omega

/-- In a run whose steps are all moderate no count ever exceeds its 16 bits. -/
theorem neverWrapped_throughout (settings : Settings) (workers : Nat) (events : List Event)
    (moderate : Meets step Moderate (System.init settings workers) events) :
    Throughout step NeverWrapped (System.init settings workers) events := by
  refine Throughout.mono (P := fun y => Inv 65535 y ∧ Bounded y) ?_
    (throughout_of_invariant ?_ ⟨Inv.init settings workers _, bounded_init settings workers⟩
      moderate)
  · rintro y ⟨inv, -⟩ p lt
    have le := (inv.accounted.exact p).peak (by simpa [entry] using lt)
    exact Nat.lt_succ_of_le le
  · rintro y e y' ⟨inv, bounded⟩ cond ran
    have room : ∀ q, holders y q + 3 ≤ 65535 := by
      intro q
      have le := holders_le inv bounded cond.uncrowded q
      simp only [itRefcountLimit] at le
      omega
    exact ⟨inv.step room cond.undisturbed ran, bounded.step inv room cond.limited ran⟩

/-- `set k` of a client that waits for the answer. -/
def storedKey : List Event :=
  [.upload 0 .text .set (plainRequest [107] [49, 13, 10]), .complete 0 0, .advance 0]

theorem uncrowded_of_length (few : y.code.length + y.bumps.length ≤ 5530) : Uncrowded y := by
  intro p
  have := y.bumps.countP_le_length (p := fun q => decide (q = p))
  omega

/-- Three workers read the key at the same time, the first of them twice. -/
def sharedReads : List Event :=
  [.lookup 0 .binary [107] none .queued, .lookup 1 (.get false) [107] none .none,
    .mget 2 [107] [.value] ⟨none, false, false⟩ .dropped, .advance 1, .advance 0, .advance 2,
    .advance 0, .lookup 0 .binary [107] none .none, .advance 2, .advance 1, .advance 0,
    .advance 0, .respFinish 1, .bumped 0]

theorem neverWrapped_throughout_stored :
    (run step (System.init defaultSettings 3) (storedKey ++ sharedReads)).map
        (·.server.pending.length) = .ok 3 ∧
      Throughout step NeverWrapped (System.init defaultSettings 3) (storedKey ++ sharedReads) := by
  have tested : Meets step (fun y e => (Undisturbed y e ∧ Limited y e) ∧
      y.code.length + y.bumps.length ≤ 5530) (System.init defaultSettings 3)
      (storedKey ++ sharedReads) := by
    decide +kernel
  refine ⟨by decide +kernel, neverWrapped_throughout _ _ _ ?_⟩
  exact tested.of_invariant (P := fun _ => True) (fun _ _ _ _ _ _ => trivial)
    (fun y e _ test => ⟨test.1.1, test.1.2, uncrowded_of_length test.2⟩) trivial

/-! ## Responses that wait -/

/-- Binary `get`s for one key whose responses are not sent. -/
def pipelinedGets (key : Key) : Nat → List Event
  | 0 => []
  | n + 1 => .lookup 0 .binary key none .none :: .advance 0 :: .advance 0 :: pipelinedGets key n

/-- The first worker is idle and would find the item. -/
structure Hits (key : Key) (p : ItemPtr) (y : System) : Prop where
  idle : y.code[0]? = some .idle
  found : y.server.assoc key = some p
  alive : itemIsDead y.server (y.server.heap p) = false

/-- The state after one of them. -/
def answered (y : System) (p : ItemPtr) : System :=
  { y with
    server := { refcountIncr y.server p with pending := y.server.pending ++ [p] }
    code := y.code.set 0 .idle }

theorem Hits.answered {key : Key} (hits : Hits key p y) :
    Hits key p (answered y p) where
  idle := by
    obtain ⟨lt, -⟩ := List.getElem?_eq_some_iff.mp hits.idle
    simp [Holders.answered, lt]
  found := hits.found
  alive := by
    have alive := hits.alive
    simp only [Holders.answered, refcountIncr, State.modify_heap_self] at alive ⊢
    exact alive

theorem Hits.run_one {key : Key} (hits : Hits key p y)
    (short : key.length ≤ keyMaxLength) (events : List Event) :
    run step y (.lookup 0 .binary key none .none :: .advance 0 :: .advance 0 :: events) =
      run step (Holders.answered y p) events := by
  obtain ⟨lt, -⟩ := List.getElem?_eq_some_iff.mp hits.idle
  have first : step y (.lookup 0 .binary key none .none) =
      .ok { y.moveTo 0 (.found .binary p) with server := refcountIncr y.server p } := by
    simp only [step, starting, hits.idle, if_neg (Nat.not_lt.mpr short), lookup, doItemGet,
      hits.found, hits.alive]
    rfl
  rw [run_cons first]
  have second : step { y.moveTo 0 (.found .binary p) with server := refcountIncr y.server p }
      (.advance 0) =
      .ok { y.moveTo 0 (.reading .binary p) with server := refcountIncr y.server p } := by
    simp [step, advance, System.moveTo, lt, Reader.limited]
  rw [run_cons second]
  have third : step { y.moveTo 0 (.reading .binary p) with server := refcountIncr y.server p }
      (.advance 0) = .ok (Holders.answered y p) := by
    simp [step, advance, read, System.moveTo, System.respond, Holders.answered, lt]
    rfl
  rw [run_cons third]

theorem Hits.run_pipelinedGets {key : Key} (hits : Hits key p y)
    (short : key.length ≤ keyMaxLength) (n : Nat) :
    ∃ y', run step y (pipelinedGets key n) = .ok y' ∧ Hits key p y' ∧
      y'.server.next = y.server.next ∧
      y'.server.pending = y.server.pending ++ List.replicate n p ∧
      (y'.server.heap p).refcount = (y.server.heap p).refcount + n ∧
      (0 < n → (y.server.heap p).refcount + n ≤ (y'.server.heap p).peak) := by
  induction n generalizing y with
  | zero =>
    exact ⟨y, rfl, hits, rfl, (List.append_nil _).symm, rfl,
      fun pos => absurd pos (Nat.lt_irrefl 0)⟩
  | succ n ih =>
    have count : ((Holders.answered y p).server.heap p).refcount =
        (y.server.heap p).refcount + 1 := by
      simp [Holders.answered, refcountIncr]
    obtain ⟨y', ran, hits', next, pending, counted, high⟩ := ih hits.answered
    rw [count] at counted high
    refine ⟨y', (hits.run_one short _).trans ran, hits', next, ?_, by omega, fun _ => ?_⟩
    · rw [pending, List.replicate_succ]
      exact List.append_assoc _ _ _
    · cases n with
      | zero =>
        obtain rfl := Except.ok.inj ran
        simp [Holders.answered, refcountIncr]
      | succ n =>
        have := high (Nat.succ_pos n)
        omega

/-- With 65535 unsent binary responses the increment of the last one takes the 16 bits
from 65535 to 0. -/
theorem pipelinedGets_wrap :
    ∃ y, run step (System.init defaultSettings 1) (storedKey ++ pipelinedGets [107] 65535) = .ok y ∧
      y.server.assoc [107] = some 0 ∧ y.server.pending = List.replicate 65535 0 ∧
      (y.server.heap 0).refcount = 65536 ∧ ¬NeverWrapped y := by
  obtain ⟨y₁, stored, hits, next, pending, count⟩ :
      ∃ y, run step (System.init defaultSettings 1) storedKey = .ok y ∧ Hits [107] 0 y ∧
        y.server.next = 1 ∧ y.server.pending = [] ∧ (y.server.heap 0).refcount = 1 :=
    ⟨_, rfl, ⟨rfl, rfl, rfl⟩, rfl, rfl, rfl⟩
  obtain ⟨y, ran, hits', next', pending', count', high⟩ := hits.run_pipelinedGets (by decide) 65535
  rw [count] at count' high
  refine ⟨y, (run_append stored _).trans ran, hits'.found, ?_, count', fun never => ?_⟩
  · rw [pending', pending, List.nil_append]
  · have low := never 0 (by rw [next', next]; exact Nat.one_pos)
    have := high (by decide)
    omega

end Kvsev.Holders
