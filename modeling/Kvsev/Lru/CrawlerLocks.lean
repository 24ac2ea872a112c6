import Mathlib.Logic.Function.Basic

/-!
# The locks of the LRU crawler

The crawler thread goes through the classes round after round. For each class with a
crawler it first asks the client for room, then takes the lock of the class and moves the
crawler on. `lru_crawler_class_done` gives the lock back. The thread also calls it when
the client is gone, before it has taken the lock.

What the thread does is a list of acts. Nothing depends on the order in which the classes
come, so a run is any list of iterations of the inner loop. Walking the hash table instead
is left to `metadump`, and neither takes these locks nor needs them.
-/

namespace Kvsev.Lru.CrawlerLocks

open Function

/-- What the thread does to the lock of a class, or to its list or `crawlers` entry. -/
inductive Act where
  | lock (i : Nat)
  | unlock (i : Nat)
  | change (i : Nat)

/-- Everything is changed and unlocked under its lock, given the locks that are held. -/
def Disciplined : (Nat → Bool) → List Act → Prop
  | _, [] => True
  | held, .lock i :: acts => Disciplined (update held i true) acts
  | held, .unlock i :: acts => held i = true ∧ Disciplined (update held i false) acts
  | held, .change i :: acts => held i = true ∧ Disciplined held acts

/-- The locks that are held afterwards. -/
def heldAfter : (Nat → Bool) → List Act → Nat → Bool
  | held, [] => held
  | held, .lock i :: acts => heldAfter (update held i true) acts
  | held, .unlock i :: acts => heldAfter (update held i false) acts
  | held, .change _ :: acts => heldAfter held acts

/-- `crawler_module_reg_t`. A module whose `eval` unlinks items needs the lock. -/
structure Module where
  needsLock : Bool
  needsClient : Bool

/-- `crawlers`, `crawler_count` and whether there is a client. -/
structure Crawlers where
  /-- `it_flags` is 1. -/
  enabled : Nat → Bool
  remaining : Nat → Nat
  crawlerCount : Int
  client : Bool

/-- What the thread meets in one iteration. -/
structure Visit where
  /-- `lru_crawler_client_getbuf` returns zero. -/
  buffer : Bool
  /-- It has closed the client. -/
  closed : Bool
  /-- `do_item_crawl_q` returns an item. -/
  search : Bool
  /-- The item is neither locked nor referenced. -/
  trylock : Bool
  unreferenced : Bool
  /-- `eval` unlinks it. -/
  reclaims : Bool
  /-- The classes, with `remaining`, that are started while the thread sleeps. -/
  started : List (Nat × Nat)

/-- `do_lru_crawler_start`, in another thread, which takes the lock of the class for it;
`remaining` has been capped already. -/
def doLruCrawlerStart (s : Crawlers) (sid remaining : Nat) : Crawlers :=
  if s.enabled sid then s
  else
    { s with
      enabled := update s.enabled sid true
      remaining := update s.remaining sid
        (if remaining = 0 then 0 else remaining + 1)
      crawlerCount := s.crawlerCount + 1 }

/-- `lru_crawler_class_done` -/
def lruCrawlerClassDone (s : Crawlers) (i : Nat) : List Act × Crawlers :=
  ([.change i, .unlock i],
    { s with
      enabled := update s.enabled i false
      crawlerCount := s.crawlerCount - 1 })

/-- The calls of `eval` and of `pthread_mutex_unlock` around it. -/
def evalItem (m : Module) (i : Nat) (v : Visit) : List Act :=
  if m.needsLock then (if v.reclaims then [.change i] else []) ++ [.unlock i] else [.unlock i]

/-- The iteration from `pthread_mutex_lock` on. -/
def crawlClass (m : Module) (s : Crawlers) (i : Nat) (v : Visit) : List Act × Crawlers :=
  let left := s.remaining i - 1
  if v.search = false then
    let (acts, s) := lruCrawlerClassDone s i
    (.lock i :: .change i :: acts, s)
  else
    let counted := { s with remaining := update s.remaining i left }
    if s.remaining i ≠ 0 ∧ left < 1 then
      let (acts, s) := lruCrawlerClassDone counted i
      (.lock i :: .change i :: acts, s)
    else if v.trylock && v.unreferenced then
      (.lock i :: .change i :: evalItem m i v,
        v.started.foldl (fun s (sid, remaining) => doLruCrawlerStart s sid remaining) counted)
    else ([.lock i, .change i, .unlock i], counted)

/-- One iteration of the inner loop of `item_crawler_thread`. -/
def visitClass (m : Module) (s : Crawlers) (i : Nat) (v : Visit) : List Act × Crawlers :=
  if s.enabled i = false then ([], s)
  else if s.client then
    if v.buffer then crawlClass m s i v
    else lruCrawlerClassDone { s with client := !v.closed } i
  else if m.needsClient then lruCrawlerClassDone s i
  else crawlClass m s i v

/-- What the thread does in a run. -/
def crawl (m : Module) : Crawlers → List (Nat × Visit) → List Act
  | _, [] => []
  | s, (i, v) :: visits => (visitClass m s i v).1 ++ crawl m (visitClass m s i v).2 visits

/-- Whoever is to get the output is there: the client has room, or no client is needed. -/
def Served (m : Module) (s : Crawlers) (i : Nat) (v : Visit) : Prop :=
  s.enabled i = true → if s.client then v.buffer = true else m.needsClient = false

/-- So it is in every iteration of a run. -/
def ServedThroughout (m : Module) : Crawlers → List (Nat × Visit) → Prop
  | _, [] => True
  | s, (i, v) :: visits => Served m s i v ∧ ServedThroughout m (visitClass m s i v).2 visits

theorem disciplined_append {held : Nat → Bool} {acts more : List Act} :
    Disciplined held (acts ++ more) ↔
      Disciplined held acts ∧ Disciplined (heldAfter held acts) more := by
  induction acts generalizing held with
  | nil => simp [Disciplined, heldAfter]
  | cons act acts ih => cases act <;> simp [Disciplined, heldAfter, ih, and_assoc]

variable {held : Nat → Bool} {m : Module} {s : Crawlers} {i : Nat} {v : Visit}

/-- What follows after taking the lock is done under it, and ends with giving it back. -/
theorem crawlClass_disciplined (free : held i = false) :
    Disciplined held (crawlClass m s i v).1 ∧ heldAfter held (crawlClass m s i v).1 = held := by
  have back : update held i false = held := by rw [← free, update_eq_self]
  unfold crawlClass
  dsimp only
  split
  · simp [lruCrawlerClassDone, Disciplined, heldAfter, back]
  split
  · simp [lruCrawlerClassDone, Disciplined, heldAfter, back]
  split
  · unfold evalItem
    split
    · cases v.reclaims <;> simp [Disciplined, heldAfter, back]
    · simp [Disciplined, heldAfter, back]
  · simp [Disciplined, heldAfter, back]

/-- Without the lock, there is nothing to give back. -/
theorem lruCrawlerClassDone_undisciplined (free : held i = false) :
    ¬ Disciplined held (lruCrawlerClassDone s i).1 := by
  simp [lruCrawlerClassDone, Disciplined, free]

theorem heldAfter_visitClass (free : held i = false) :
    heldAfter held (visitClass m s i v).1 = held := by
  have done (s : Crawlers) : heldAfter held (lruCrawlerClassDone s i).1 = held := by
    simp only [lruCrawlerClassDone, heldAfter]
    rw [← free, update_eq_self]
  have crawled := (crawlClass_disciplined (m := m) (s := s) (v := v) free).2
  unfold visitClass
  split
  · rfl
  split
  · split
    · exact crawled
    · exact done _
  split
  · exact done _
  · exact crawled

theorem visitClass_disciplined_iff (free : held i = false) :
    Disciplined held (visitClass m s i v).1 ↔ Served m s i v := by
  have crawled := (crawlClass_disciplined (m := m) (s := s) (v := v) free).1
  have undone (s : Crawlers) := lruCrawlerClassDone_undisciplined (s := s) free
  unfold visitClass Served
  cases s.enabled i with
  | false => simp [Disciplined]
  | true =>
    cases s.client with
    | true => cases v.buffer <;> simp [crawled, undone]
    | false => cases m.needsClient <;> simp [crawled, undone]

/-- The crawler changes lists and entries under their locks, and gives back only the locks it
holds, exactly in the runs in which the client has room whenever it is asked and is there if it
is needed. -/
theorem lock_discipline_iff (m : Module) (s : Crawlers) (visits : List (Nat × Visit)) :
    Disciplined (fun _ => false) (crawl m s visits) ↔ ServedThroughout m s visits := by
  induction visits generalizing s with
  | nil => simp [crawl, Disciplined, ServedThroughout]
  | cons visit visits ih =>
    obtain ⟨i, v⟩ := visit
    rw [crawl, ServedThroughout, disciplined_append, heldAfter_visitClass rfl,
      visitClass_disciplined_iff rfl, ih]

/-- `metadump` of class 1 for a client that closes its connection. -/
theorem disconnected_unlocks :
    ¬ Disciplined (fun _ => false) (crawl ⟨false, true⟩ ⟨(· = 1), fun _ => 0, 1, true⟩
      [(1, ⟨false, true, false, false, false, false, []⟩)]) := by
  simp [crawl, visitClass, lruCrawlerClassDone, Disciplined]

end Kvsev.Lru.CrawlerLocks
