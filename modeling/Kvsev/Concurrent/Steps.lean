import Kvsev.Concurrent.System
import Kvsev.Server.Alignment

/-!
# What a step of the system can do

Between `store_item` and the assignment of `mt_index`, the item of a handler is in
the table without an index of its own. `Change` says which steps enter, cross and
leave this window, and that all others keep what the invariants speak about.
-/

namespace Kvsev.Concurrent

open Function Merkle Memory Server Transition

/-- Which part of the window between `store_item` and the assignment of the index
a handler is in, and for which item. -/
inductive Stage where
  | outside
  | unadded (p : ItemPtr)
  | added (p : ItemPtr)
  deriving DecidableEq

namespace Pc

def stage : Pc → Stage
  | stored p _ | maced p _ | locked p _ => .unadded p
  | added p => .added p
  | _ => .outside

/-- The handler is between `store_item` and the assignment of the index of `p`. -/
def Between (c : Pc) (p : ItemPtr) : Prop := c.stage = .unadded p ∨ c.stage = .added p

/-- The item that the handler of a storage command works on. -/
def pointer : Pc → Option ItemPtr
  | uploaded p _ _ | stored p _ | maced p _ | locked p _ | added p => some p
  | _ => none

/-- What `P` asks of an upload that waits for `store_item`. -/
def Uploads (P : ItemPtr → Nread → StoreRequest → Prop) : Pc → Prop
  | uploaded p comm req => P p comm req
  | _ => True

instance {P : ItemPtr → Nread → StoreRequest → Prop} [∀ p comm req, Decidable (P p comm req)]
    (c : Pc) : Decidable (c.Uploads P) := by
  cases c <;> dsimp only [Uploads] <;> infer_instance

/-- The request whose leaf is not appended yet. -/
def request : Pc → Option StoreRequest
  | uploaded _ _ req | stored _ req | maced _ req | locked _ req => some req
  | _ => none

instance (c : Pc) (p : ItemPtr) : Decidable (c.Between p) := inferInstanceAs (Decidable (_ ∨ _))

/-- What the handler has done for its item, if no step of it failed. -/
def written : Pc → Marks
  | uploaded _ _ _ | stored _ _ => Marks.none
  | maced _ _ | locked _ _ => ⟨true, false, false⟩
  | added _ => ⟨true, true, false⟩
  | _ => Marks.all

theorem Between.unique {c : Pc} {p q : ItemPtr} (first : c.Between p) (second : c.Between q) :
    q = p := by
  rcases first with first | first
  · rcases second with second | second
    · exact Stage.unadded.inj (second.symm.trans first)
    · cases second.symm.trans first
  · rcases second with second | second
    · cases second.symm.trans first
    · exact Stage.added.inj (second.symm.trans first)

theorem pointer_of_between {c : Pc} {p : ItemPtr} (between : c.Between p) : c.pointer = some p := by
  cases c <;> simp_all [Between, stage, pointer]

end Pc

/-- No handler is between storing the item and writing its index. -/
def Settled (y : System) (p : ItemPtr) : Prop := ∀ w, ¬(y.pc w).Between p

/-- What an event can change. -/
inductive Change (y y' : System) : Event → Prop where
  /-- The handler waits or moves on outside the window or within a part of it. -/
  | moves (e : Event) (c : Pc) (pc : y'.pc = update y.pc e.worker c)
      (stage : c.stage = (y.pc e.worker).stage)
      (held : ∀ p, c.pointer = some p →
        (y.pc e.worker).pointer = some p ∧ c.written = (y.pc e.worker).written)
      (request : c.request = none ∨ c.request = (y.pc e.worker).request)
      (marks : y'.marks = y.marks) (shrinks : Shrinks Item.core y.server y'.server) :
      Change y y' e
  | uploads (w : Nat) (p : ItemPtr) (comm : Nread) (req : StoreRequest) (idle : y.pc w = .idle)
      (pc : y'.pc = update y.pc w (.uploaded p comm req)) (marks : y'.marks = y.marks)
      (fresh : p = y.server.next) (lt : p < y'.server.next)
      (shrinks : Shrinks Item.core y.server y'.server) : Change y y' (.upload w comm req)
  | stores (w : Nat) (p : ItemPtr) (comm : Nread) (req : StoreRequest)
      (here : y.pc w = .uploaded p comm req) (ends : endsLine (y.server.heap p).data = true)
      (pc : y'.pc = update y.pc w (.stored p req)) (marks : y'.marks = y.marks)
      (server : y'.server = (doStoreItem y.server p comm req.setStale req.copy).2) :
      Change y y' (.advance w)
  | macs (w : Nat) (p : ItemPtr) (req : StoreRequest) (here : y.pc w = .stored p req)
      (pc : y'.pc = update y.pc w (.maced p req))
      (marks : y'.marks = update y.marks p { y.marks p with mac := true })
      (server : y'.server =
        y.server.modify p fun it => { it with mac := itemMac it req.flat }) :
      Change y y' (.advance w)
  | adds (w : Nat) (p : ItemPtr) (req : StoreRequest) (r : MtError) (mt : Mt)
      (here : y.pc w = .locked p req) (pc : y'.pc = update y.pc w (.added p))
      (marks : y'.marks = update y.marks p { y.marks p with leaf := r = .success })
      (added : mtAdd y.server.merkle (some (y.server.heap p).mac.toList) 16 req.treeAllocs =
        .ok (r, mt))
      (server : y'.server = { y.server with merkle := mt }) : Change y y' (.advance w)
  | indexes (w : Nat) (p : ItemPtr) (here : y.pc w = .added p)
      (pc : y'.pc = update y.pc w (.indexed p))
      (marks : y'.marks = update y.marks p { y.marks p with index := true })
      (server : y'.server = indexStep y.server p) : Change y y' (.advance w)

namespace Change

variable {y y' : System} {w : Nat} {e : Event}

/-- Steps after which the handler is where it was. -/
theorem stays (pc : y'.pc = y.pc) (marks : y'.marks = y.marks)
    (shrinks : Shrinks Item.core y.server y'.server) : Change y y' e :=
  .moves e (y.pc e.worker) (by simp [pc]) rfl (fun _ held => ⟨held, rfl⟩) (.inr rfl) marks
    shrinks

theorem refl (y : System) (e : Event) : Change y y e := stays rfl rfl (.refl _ _)

/-- Steps outside the window. -/
theorem outside {c : Pc} (pc : y'.pc = update y.pc e.worker c)
    (before : (y.pc e.worker).stage = .outside) (after : c.stage = .outside)
    (none : c.pointer = none) (marks : y'.marks = y.marks)
    (shrinks : Shrinks Item.core y.server y'.server) : Change y y' e := by
  refine .moves e c pc (after.trans before.symm) (fun _ held => nomatch none.symm.trans held)
    (.inl ?_) marks shrinks
  cases c <;> first | rfl | cases none

theorem upload (idle : y.pc w = .idle) (comm : Nread) (req : StoreRequest) :
    Change y (upload y w comm req) (.upload w comm req) := by
  have grown := Shrinks.uploadItem y.server req req.data
  simp only [Concurrent.upload]
  split
  · exact refl y _
  rcases ran : uploadItem y.server req req.data with ⟨found, s⟩
  rw [ran] at grown
  cases found with
  | none => exact stays rfl rfl (grown.trans (.of_sheds (.dropOnFailedAlloc s _ _)))
  | some p =>
    exact .uploads w p comm req idle rfl rfl (uploadItem_some ran).1 (uploadItem_lt ran)
      grown

theorem lookup (idle : y.pc w = .idle) (key : Key) (touch : Option Nat) (bump : Bool) :
    Change y (lookup y w key touch bump) (.get w key touch bump) := by
  have shrinks := Shrinks.limitedGet y.server key touch bump
  simp only [Concurrent.lookup]
  split
  · exact refl y _
  rcases ran : limitedGet y.server key touch bump with ⟨found, s⟩
  rw [ran] at shrinks
  cases found with
  | none => exact stays rfl rfl shrinks
  | some p => exact outside rfl (idle ▸ rfl) rfl rfl rfl shrinks

theorem store {p : ItemPtr} {comm : Nread} {req : StoreRequest}
    (here : y.pc w = .uploaded p comm req) : Change y (store y w p comm req) (.advance w) := by
  simp only [Concurrent.store]
  split
  · exact .stores w p comm req here ‹_› rfl rfl rfl
  · exact outside rfl (here ▸ rfl) rfl rfl rfl (.doItemRemove y.server p)

theorem lock {c : Pc} (stage : c.stage = (y.pc w).stage)
    (held : ∀ p, c.pointer = some p → (y.pc w).pointer = some p ∧ c.written = (y.pc w).written)
    (request : c.request = none ∨ c.request = (y.pc w).request) :
    Change y (lock y w c) (.advance w) := by
  simp only [Concurrent.lock]
  split
  · exact .moves (.advance w) c rfl stage held request rfl (.refl _ _)
  · exact refl y _

theorem advance (ran : advance y w = .ok y') : Change y y' (.advance w) := by
  unfold Concurrent.advance at ran
  cases here : y.pc w with
  | locked p req =>
    rw [here] at ran
    obtain ⟨⟨r, s⟩, tree, ran⟩ := Exec.bind_eq_ok.mp ran
    obtain ⟨⟨r', mt⟩, added, tree⟩ := Exec.bind_eq_ok.mp tree
    cases tree
    cases ran
    exact .adds w p req r mt here rfl rfl added rfl
  | stored p req =>
    simp only [here, macStep_eq, Exec.ok_bind, Exec.pure_eq_ok] at ran
    cases ran
    exact .macs w p req here rfl rfl rfl
  | verifying p =>
    rw [here] at ran
    obtain ⟨r, _, ran⟩ := Exec.bind_eq_ok.mp ran
    cases ran
    exact outside rfl (here ▸ rfl) rfl rfl rfl (.refl _ _)
  | idle =>
    rw [here] at ran
    cases ran
    exact refl y _
  | uploaded p comm req =>
    rw [here] at ran
    cases ran
    exact store here
  | maced p req =>
    rw [here] at ran
    cases ran
    refine lock (here ▸ rfl) (fun q held => ?_) (.inr (here ▸ rfl))
    rw [here]
    exact ⟨held, rfl⟩
  | added p =>
    rw [here] at ran
    cases ran
    exact .indexes w p here rfl rfl rfl
  | indexed p =>
    rw [here] at ran
    cases ran
    exact outside rfl (here ▸ rfl) rfl rfl rfl (.refl _ _)
  | unlocked p =>
    rw [here] at ran
    cases ran
    exact outside rfl (here ▸ rfl) rfl rfl rfl (.doItemRemove y.server p)
  | found p =>
    rw [here] at ran
    cases ran
    exact lock (here ▸ rfl) nofun (.inl rfl)
  | verified p =>
    rw [here] at ran
    cases ran
    exact outside rfl (here ▸ rfl) rfl rfl rfl (.of_same rfl rfl rfl rfl rfl rfl)

theorem chore (y : System) (w : Nat) (chore : Chore) :
    Change y { y with server := chore.run y.server } (.chore w chore) := by
  refine stays rfl rfl ?_
  cases chore with
  | delete key => exact .of_sheds (.processDeleteCommand y.server key)
  | flushAll newOldest => exact .flushAll y.server newOldest
  | tick => exact .of_same rfl rfl rfl rfl rfl rfl
  | evict p => exact .doItemUnlink y.server p
  | responseSent => exact .responseSent y.server

theorem step (ran : step y e = .ok y') : Change y y' e := by
  cases e with
  | upload w comm req =>
    dsimp only [Concurrent.step] at ran
    split at ran
    · cases ran
      exact upload ‹_› comm req
    · cases ran
      exact refl y _
  | get w key touch bump =>
    dsimp only [Concurrent.step] at ran
    split at ran
    · cases ran
      exact lookup ‹_› key touch bump
    · cases ran
      exact refl y _
  | advance w => exact advance ran
  | chore w chore =>
    dsimp only [Concurrent.step] at ran
    split at ran
    · cases ran
      exact Change.chore y w chore
    · cases ran
      exact refl y _

/-- Only one handler takes the step. -/
theorem pc_of_ne (change : Change y y' e) (ne : w ≠ e.worker) : y'.pc w = y.pc w := by
  cases change <;> simp_all [Event.worker]

/-- A handler works on a request that it had before, or that arrives. -/
theorem request_of {req : StoreRequest} (change : Change y y' e)
    (held : (y'.pc w).request = some req) :
    (y.pc w).request = some req ∨ ∃ comm, e = .upload w comm req := by
  by_cases same : w = e.worker
  · subst same
    cases change with
    | moves _ c pc _ _ request =>
      rw [pc, update_self] at held
      rcases request with none | kept
      · cases none.symm.trans held
      · exact .inl (kept ▸ held)
    | uploads w p comm req' idle pc =>
      simp only [Event.worker, pc, update_self, Pc.request, Option.some.injEq] at held
      exact .inr ⟨comm, held ▸ rfl⟩
    | stores w p comm req' here pc | macs w p req' here pc => simp_all [Event.worker, Pc.request]
    | adds w p req' r mt here pc | indexes w p here pc => simp_all [Event.worker, Pc.request]
  · exact .inl (change.pc_of_ne same ▸ held)

end Change

/-- The changes that the handler in the window makes to its own item. -/
structure Writes (y y' : System) (w : Nat) (p : ItemPtr) (c : Pc) : Prop where
  pc : y'.pc = update y.pc w c
  assoc : y'.server.assoc = y.server.assoc
  next : y'.server.next = y.server.next
  totalItems : y'.server.totalItems = y.server.totalItems
  table : WellLinked y.server → WellLinked y'.server
  others : ∀ q, q ≠ p → y'.server.heap q = y.server.heap q

namespace Writes

variable {y y' : System} {w : Nat} {p : ItemPtr} {c : Pc}

theorem pc_self (writes : Writes y y' w p c) : y'.pc w = c := by
  simp [writes.pc]

theorem pc_of_ne (writes : Writes y y' w p c) {w' : Nat} (ne : w' ≠ w) : y'.pc w' = y.pc w' := by
  simp [writes.pc, ne]

theorem of_modify {f : Item → Item} (pc : y'.pc = update y.pc w c)
    (server : y'.server = y.server.modify p f) (key : ∀ it, (f it).key = it.key)
    (linked : ∀ it, (f it).linked = it.linked) : Writes y y' w p c where
  pc := pc
  assoc := by simp [server]
  next := by simp [server]
  totalItems := by simp [server]
  table := fun table => server ▸
    (@Shrinks.modify _ (fun _ => ()) y.server p f (fun _ => rfl) key linked).table table
  others := fun q ne => by rw [server, State.modify_heap_of_ne f ne]

theorem of_merkle {mt : Mt} (pc : y'.pc = update y.pc w c)
    (server : y'.server = { y.server with merkle := mt }) : Writes y y' w p c := by
  refine ⟨pc, by rw [server], by rw [server], by rw [server], fun table => ?_, fun q _ => ?_⟩
  · rw [server]
    exact { table with }
  · rw [server]

end Writes

/-! ## Steps that return -/

/-- The tree has room and memory for the leaf, if the event appends one. -/
def HasRoom (y : System) (e : Event) : Prop :=
  ∀ w p req, e = .advance w → y.pc w = .locked p req →
    y.server.merkle.elems < 2 ^ 26 ∧ ∀ l, req.treeAllocs l ≠ none

/-- What `mt_add` does when a handler reaches it. -/
theorem HasRoom.added {y : System} {w : Nat} {p : ItemPtr} {req : StoreRequest}
    {xs : List Digest} (room : HasRoom y (.advance w)) (here : y.pc w = .locked p req)
    (tree : y.server.merkle.Represents xs) :
    ∃ mt, mtAdd y.server.merkle (some (y.server.heap p).mac.toList) 16 req.treeAllocs =
        .ok (.success, mt) ∧ mt.Represents (xs ++ [leafOf (y.server.heap p)]) := by
  obtain ⟨fits, memory⟩ := room w p req rfl here
  exact mtAdd_success tree (tree.elems ▸ fits) (by decide) (macBytes_readable _) memory

theorem step_returns {y : System} {e : Event} {xs : List Digest}
    (tree : y.server.merkle.Represents xs) (room : HasRoom y e) : ∃ y', step y e = .ok y' := by
  cases e with
  | upload w comm req | get w key touch bump | chore w chore =>
    dsimp only [step]
    split <;> exact ⟨_, rfl⟩
  | advance w =>
    dsimp only [step]
    cases here : y.pc w with
    | stored p req => simp [advance, here, macStep_eq]
    | locked p req =>
      obtain ⟨mt, added, _⟩ := room.added here tree
      simp [advance, here, treeStep, added]
    | verifying p =>
      obtain ⟨r, verified⟩ := tree.verify_returns (by decide)
        (macBytes_readable (y.server.heap p)) (y.server.heap p).mtIndex
      simp [advance, here, verifyItem, verified]
    | _ =>
      rw [advance, here]
      exact ⟨_, rfl⟩

/-- A handler without events stays where it is. -/
theorem run_pc_of_absent {y y' : System} {w : Nat} {events : List Event}
    (absent : ∀ e ∈ events, w ≠ e.worker) (ran : run step y events = .ok y') :
    y'.pc w = y.pc w := by
  induction events generalizing y with
  | nil =>
    cases ran
    rfl
  | cons e events ih =>
    unfold run at ran
    split at ran
    · cases ran
    · rename_i y₁ first
      rw [ih (fun e' member => absent e' (List.mem_cons_of_mem e member)) ran]
      exact (Change.step first).pc_of_ne (absent e List.mem_cons_self)

/-! ## Runs of a few handlers -/

/-- The handlers from `n` on have no command, and there is memory for the leaves of the others. -/
structure Few (n : Nat) (y : System) : Prop where
  idle : ∀ w, n ≤ w → y.pc w = .idle
  memory : ∀ w req, (y.pc w).request = some req → ∀ l, req.treeAllocs l ≠ none

namespace Few

variable {n : Nat} {y y' : System} {e : Event}

theorem init (n : Nat) (settings : Settings) : Few n (System.init settings) :=
  ⟨fun _ _ => rfl, nofun⟩

theorem step (few : Few n y) (worker : e.worker < n)
    (memory : ∀ w comm req, e = .upload w comm req → ∀ l, req.treeAllocs l ≠ none)
    (ran : step y e = .ok y') : Few n y' := by
  have change := Change.step ran
  refine ⟨fun w le => ?_, fun w req held => ?_⟩
  · rw [change.pc_of_ne (Nat.ne_of_gt (Nat.lt_of_lt_of_le worker le)), few.idle w le]
  · rcases change.request_of held with old | ⟨comm, same⟩
    · exact few.memory w req old
    · exact memory w comm req same

theorem hasRoom (few : Few n y) (fits : y.server.merkle.elems < 2 ^ 26) : HasRoom y e := by
  intro w p req _ locked
  exact ⟨fits, few.memory w req (locked ▸ rfl)⟩

theorem settled (few : Few n y) {p : ItemPtr} (outside : ∀ w < n, ¬(y.pc w).Between p) :
    Settled y p := by
  intro w between
  by_cases lt : w < n
  · exact outside w lt between
  · rw [few.idle w (Nat.le_of_not_lt lt)] at between
    rcases between with early | late
    · cases early
    · cases late

/-- What a test shows of a run of the first handlers. -/
theorem meets {cond test : System → Event → Prop} {events : List Event} (few : Few n y)
    (workers : ∀ e ∈ events, e.worker < n)
    (memory : ∀ w comm req, .upload w comm req ∈ events → ∀ l, req.treeAllocs l ≠ none)
    (sound : ∀ y e, Few n y → test y e → cond y e)
    (tested : Meets Concurrent.step test y events) : Meets Concurrent.step cond y events := by
  have among : ∀ e ∈ events, e.worker < n ∧
      ∀ w comm req, e = .upload w comm req → ∀ l, req.treeAllocs l ≠ none := by
    intro e member
    refine ⟨workers e member, fun w comm req same => ?_⟩
    exact memory w comm req (same ▸ member)
  exact ((meets_of_forall among).and tested).of_invariant
    (fun _ _ _ few both ran => few.step both.1.1 both.1.2 ran)
    (fun y e few both => sound y e few both.2) few

end Few

end Kvsev.Concurrent
