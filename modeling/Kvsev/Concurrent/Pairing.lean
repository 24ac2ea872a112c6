import Kvsev.Concurrent.Steps

/-!
# Items and leaves under concurrency

A handler counts its item in `store_item` and reads the counter again when it
holds the mutex. The index it writes is that of its own leaf if no other handler
was in `store_item` in the meantime: `Serial` asks for this, and `Paired` is what
follows once all handlers have finished.
-/

namespace Kvsev.Concurrent

open Function Merkle Memory Server Transition

/-- Every item in the table has the index of its own leaf, and no two items have
the same. -/
structure Paired (s : State) : Prop where
  leaf : ∀ key p, s.assoc key = some p →
    mtLeaf s.merkle (s.heap p).mtIndex = .ok (some (leafOf (s.heap p)))
  distinct : ∀ key key' p p', s.assoc key = some p → s.assoc key' = some p' →
    (s.heap p).mtIndex = (s.heap p').mtIndex → p = p'

/-- All handlers have finished. -/
def Finished (y : System) : Prop := ∀ w, y.pc w = .idle

/-- Only this handler is between storing an item and writing its index. -/
def Alone (y : System) (w : Nat) : Prop := ∀ w' p, (y.pc w').Between p → w' = w

/-- How the counter and the tree stand while `n` items have their index. -/
inductive Phase (y : System) (xs : List Digest) (n : Nat) : Prop where
  | quiet (settled : ∀ p, Settled y p) (leaves : xs.length = n)
      (counted : y.server.totalItems = n)
  | unadded (w : Nat) (p : ItemPtr) (here : (y.pc w).stage = .unadded p) (alone : Alone y w)
      (leaves : xs.length = n) (counted : y.server.totalItems = n + 1)
  | added (w : Nat) (p : ItemPtr) (here : (y.pc w).stage = .added p) (alone : Alone y w)
      (leaves : xs.length = n + 1) (last : xs[n]? = some (leafOf (y.server.heap p)))
      (counted : y.server.totalItems = n + 1)

/-- The invariant of runs in which one handler at a time is in the window. -/
structure Serialised (y : System) (xs : List Digest) (n : Nat) : Prop where
  tree : y.server.merkle.Represents xs
  table : WellLinked y.server
  old : ∀ w p, (y.pc w).pointer = some p → p < y.server.next
  phase : Phase y xs n
  leaf : ∀ key p, y.server.assoc key = some p → Settled y p →
    (y.server.heap p).mtIndex < n ∧
      xs[(y.server.heap p).mtIndex]? = some (leafOf (y.server.heap p))
  distinct : ∀ key key' p p', y.server.assoc key = some p → y.server.assoc key' = some p' →
    Settled y p → Settled y p' →
      (y.server.heap p).mtIndex = (y.server.heap p').mtIndex → p = p'

/-- An item that has its index already had it in the state before. -/
structure Inherited (y y' : System) (key : Key) (q : ItemPtr) : Prop where
  found : y.server.assoc key = some q
  settled : Settled y q
  index : (y'.server.heap q).mtIndex = (y.server.heap q).mtIndex
  leaf : leafOf (y'.server.heap q) = leafOf (y.server.heap q)

theorem serialised_init (settings : Settings) : Serialised (System.init settings) [] 0 where
  tree := mtCreate_represents
  table := WellLinked.init settings
  old := fun _ _ held => nomatch held
  phase := .quiet
    (fun _ _ between => by simp [System.init, Pc.Between, Pc.stage] at between) rfl rfl
  leaf := fun _ _ found => nomatch found
  distinct := fun _ _ _ _ found => nomatch found

namespace Serialised

variable {y y' : System} {xs : List Digest} {n w : Nat} {p : ItemPtr}

section

variable (inv : Serialised y xs n)

include inv

theorem small : n ≤ 2 ^ 26 := by
  have fits := inv.tree.fits
  cases inv.phase <;> omega

theorem unadded_phase (here : (y.pc w).stage = .unadded p) :
    Alone y w ∧ xs.length = n ∧ y.server.totalItems = n + 1 := by
  cases inv.phase with
  | quiet settled leaves counted => exact absurd (.inl here) (settled p w)
  | unadded w' p' here' alone leaves counted =>
    cases alone w p (.inl here)
    exact ⟨alone, leaves, counted⟩
  | added w' p' here' alone leaves last counted =>
    cases alone w p (.inl here)
    cases here.symm.trans here'

theorem added_phase (here : (y.pc w).stage = .added p) :
    Alone y w ∧ xs.length = n + 1 ∧ xs[n]? = some (leafOf (y.server.heap p)) ∧
      y.server.totalItems = n + 1 := by
  cases inv.phase with
  | quiet settled leaves counted => exact absurd (.inr here) (settled p w)
  | unadded w' p' here' alone leaves counted =>
    cases alone w p (.inr here)
    cases here.symm.trans here'
  | added w' p' here' alone leaves last counted =>
    cases alone w p (.inr here)
    cases here.symm.trans here'
    exact ⟨alone, leaves, last, counted⟩

/-- The handlers' items exist after a step of one of them. -/
theorem old_of_update {c : Pc} (pc : y'.pc = update y.pc w c)
    (next : y.server.next ≤ y'.server.next) (held : ∀ q, c.pointer = some q → q < y'.server.next)
    (w' : Nat) (q : ItemPtr) (pointer : (y'.pc w').pointer = some q) : q < y'.server.next := by
  by_cases same : w' = w
  · subst w'
    rw [pc, update_self] at pointer
    exact held q pointer
  · rw [pc, update_of_ne same] at pointer
    exact Nat.lt_of_lt_of_le (inv.old w' q pointer) next

/-- The items that have their index are those of the state before and perhaps one
whose index is next. -/
theorem rebuild {ys : List Digest} {n' : Nat}
    (tree : y'.server.merkle.Represents ys) (table : WellLinked y'.server)
    (old : ∀ w q, (y'.pc w).pointer = some q → q < y'.server.next) (phase : Phase y' ys n')
    (grown : xs <+: ys) (more : n ≤ n')
    (entries : ∀ key q, y'.server.assoc key = some q → Settled y' q →
      Inherited y y' key q ∨
        q = p ∧ n < n' ∧ (y'.server.heap q).mtIndex = n ∧
          ys[n]? = some (leafOf (y'.server.heap q))) : Serialised y' ys n' := by
  refine ⟨tree, table, old, phase, fun key q found done => ?_,
    fun key key' q q' found found' done done' same => ?_⟩
  · rcases entries key q found done with before | ⟨-, lt, index, leaf⟩
    · obtain ⟨below, leaf⟩ := inv.leaf key q before.found before.settled
      obtain ⟨inside, -⟩ := List.getElem?_eq_some_iff.mp leaf
      obtain ⟨rest, rfl⟩ := grown
      rw [before.index, before.leaf]
      exact ⟨Nat.lt_of_lt_of_le below more, (List.getElem?_append_left inside).trans leaf⟩
    · rw [index]
      exact ⟨lt, leaf⟩
  · -- The next index is above those of the items before.
    have below : ∀ key q, Inherited y y' key q → (y'.server.heap q).mtIndex < n := by
      intro key q before
      rw [before.index]
      exact (inv.leaf key q before.found before.settled).1
    rcases entries key q found done with before | ⟨here, _, index, _⟩
    · rcases entries key' q' found' done' with before' | ⟨_, _, index', _⟩
      · rw [before.index, before'.index] at same
        exact inv.distinct key key' q q' before.found before'.found before.settled
          before'.settled same
      · have lt := below key q before
        rw [same, index'] at lt
        exact absurd lt (Nat.lt_irrefl n)
    · rcases entries key' q' found' done' with before' | ⟨here', _, _, _⟩
      · have lt := below key' q' before'
        rw [← same, index] at lt
        exact absurd lt (Nat.lt_irrefl n)
      · exact here.trans here'.symm

/-- A handler moves on without entering or leaving the window. -/
theorem move {c : Pc} (pc : y'.pc = update y.pc w c)
    (stage : c.stage = (y.pc w).stage) (held : ∀ q, c.pointer = some q → q < y'.server.next)
    (shrinks : Shrinks Item.core y.server y'.server) : Serialised y' xs n := by
  have stages : ∀ w', (y'.pc w').stage = (y.pc w').stage := by
    intro w'
    by_cases same : w' = w
    · subst w'
      simp [pc, stage]
    · simp [pc, same]
  have between : ∀ w p, (y'.pc w).Between p ↔ (y.pc w).Between p := by
    intro w p
    rw [Pc.Between, Pc.Between, stages w]
  have settled : ∀ p, Settled y' p ↔ Settled y p := fun p =>
    forall_congr' fun w => not_congr (between w p)
  have alone : ∀ w, Alone y w → Alone y' w := fun w alone w' p h =>
    alone w' p ((between w' p).mp h)
  have core : ∀ p, p < y.server.next →
      (y'.server.heap p).mtIndex = (y.server.heap p).mtIndex ∧
        leafOf (y'.server.heap p) = leafOf (y.server.heap p) := fun p lt =>
    leafOf_congr (authView_coreView _ _ (shrinks.view p lt))
  refine inv.rebuild (p := 0) (shrinks.merkle ▸ inv.tree) (shrinks.table inv.table)
    (inv.old_of_update pc shrinks.next held) ?_ (List.prefix_refl xs) (Nat.le_refl n)
    fun key q found done => ?_
  · cases inv.phase with
    | quiet quiet leaves counted =>
      exact .quiet (fun p => (settled p).mpr (quiet p)) leaves (shrinks.totalItems.trans counted)
    | unadded w p here solo leaves counted =>
      exact .unadded w p ((stages w).trans here) (alone w solo) leaves
        (shrinks.totalItems.trans counted)
    | added w p here solo leaves last counted =>
      have lt := inv.old w p (Pc.pointer_of_between (.inr here))
      exact .added w p ((stages w).trans here) (alone w solo) leaves
        (last.trans (congrArg some (core p lt).2.symm)) (shrinks.totalItems.trans counted)
  · have found := shrinks.assoc key q found
    obtain ⟨index, leaf⟩ := core q (inv.table.old key q found)
    exact .inl ⟨found, (settled q).mp done, index, leaf⟩

/-- A handler enters the window when no other one is in it. -/
theorem enter {req : StoreRequest} (quiet : ∀ p, Settled y p)
    (lt : p < y.server.next) (pc : y'.pc = update y.pc w (.stored p req))
    (links : Links Item.core p y.server y'.server) : Serialised y' xs n := by
  have count : xs.length = n ∧ y.server.totalItems = n := by
    cases inv.phase with
    | quiet _ leaves counted => exact ⟨leaves, counted⟩
    | unadded w' p' here _ _ _ => exact absurd (.inl here) (quiet p' w')
    | added w' p' here _ _ _ _ => exact absurd (.inr here) (quiet p' w')
  have small := inv.small
  have here : (y'.pc w).stage = .unadded p := by simp [pc, Pc.stage]
  have alone : Alone y' w := by
    intro w' q between
    by_contra ne
    rw [pc, update_of_ne ne] at between
    exact quiet q w' between
  have total : y'.server.totalItems = n + 1 := by
    rw [links.totalItems, count.2]
    exact u64_of_lt (by omega)
  refine inv.rebuild (p := p) (links.merkle ▸ inv.tree) (links.table inv.table)
    (inv.old_of_update pc links.next fun q held => ?_) (.unadded w p here alone count.1 total)
    (List.prefix_refl xs) (Nat.le_refl n) fun key q found done => .inl ?_
  · cases held
    exact Nat.lt_of_lt_of_le lt links.next
  · -- Items that are settled now were in the table before.
    have other : key ≠ (y.server.heap p).key := by
      rintro rfl
      cases found.symm.trans links.here
      exact done w (.inl here)
    have found := links.assoc key q other found
    have same := links.view q (inv.table.old key q found)
    obtain ⟨index, leaf⟩ := leafOf_congr (authView_coreView _ _ same)
    exact ⟨found, quiet q, index, leaf⟩

end

theorem alone_of_writes {c : Pc} (writes : Writes y y' w p c) (alone : Alone y w) : Alone y' w := by
  intro w' q between
  by_contra ne
  exact ne (alone w' q (writes.pc_of_ne ne ▸ between))

/-- While the handler stays in the window, its item does not count. -/
theorem write (inv : Serialised y xs n) {ys : List Digest} {c : Pc} (writes : Writes y y' w p c)
    (before : (y.pc w).Between p) (after : c.Between p)
    (tree : y'.server.merkle.Represents ys) (grown : xs <+: ys) (phase : Phase y' ys n) :
    Serialised y' ys n := by
  have here : (y'.pc w).Between p := writes.pc_self ▸ after
  have lt := inv.old w p (Pc.pointer_of_between before)
  refine inv.rebuild (p := p) tree (writes.table inv.table)
    (inv.old_of_update writes.pc (Nat.le_of_eq writes.next.symm) fun q held => ?_) phase grown
    (Nat.le_refl n) fun key q found done => .inl ?_
  · cases (Pc.pointer_of_between after).symm.trans held
    exact writes.next ▸ lt
  · have other : q ≠ p := fun same => done w (same ▸ here)
    have settled : Settled y q := by
      intro w' between
      by_cases same : w' = w
      · subst w'
        exact other (before.unique between)
      · exact done w' (writes.pc_of_ne same ▸ between)
    have item := writes.others q other
    exact ⟨writes.assoc ▸ found, settled, by rw [item], by rw [item]⟩

/-- The handler writes the index and leaves the window. -/
theorem leave (inv : Serialised y xs n) (here : (y.pc w).stage = .added p)
    (pc : y'.pc = update y.pc w (.indexed p))
    (server : y'.server = indexStep y.server p) : Serialised y' xs (n + 1) := by
  have writes : Writes y y' w p (.indexed p) :=
    .of_modify pc server (fun _ => rfl) (fun _ => rfl)
  have stamped : y'.server.heap p =
      { y.server.heap p with mtIndex := u32Pred (u32 y.server.totalItems) } := by
    rw [server, indexStep, State.modify_heap_self]
  obtain ⟨alone, leaves, last, counted⟩ := inv.added_phase here
  have small := inv.small
  have index : (y'.server.heap p).mtIndex = n := by
    rw [stamped, counted, u32_of_lt (by omega)]
    exact u32Pred_succ (by omega)
  have leaf : leafOf (y'.server.heap p) = leafOf (y.server.heap p) := by
    simp only [leafOf, stamped]
  have quiet : ∀ q, Settled y' q := by
    intro q w' between
    by_cases same : w' = w
    · subst w'
      simp [writes.pc, Pc.Between, Pc.stage] at between
    · exact same (alone w' q (writes.pc_of_ne same ▸ between))
  refine inv.rebuild (p := p) (server ▸ inv.tree) (writes.table inv.table)
    (inv.old_of_update pc (Nat.le_of_eq writes.next.symm) fun q held => by cases held)
    (.quiet quiet leaves (writes.totalItems.trans counted)) (List.prefix_refl xs)
    (Nat.le_succ n) fun key q found _ => ?_
  by_cases same : q = p
  · subst q
    exact .inr ⟨rfl, Nat.lt_succ_self n, index, by rw [leaf, last]⟩
  have settled : Settled y q := by
    intro w' between
    cases alone w' q between
    exact same (Pc.Between.unique (.inr here) between)
  have item := writes.others q same
  exact .inl ⟨writes.assoc ▸ found, settled, by rw [item], by rw [item]⟩

end Serialised

/-! ## The steps -/

/-- A storing step links the upload while no other handler is in the window, and
an appending step finds room and memory. -/
structure Serial (y : System) (e : Event) : Prop where
  room : HasRoom y e
  alone : ∀ w p comm req, e = .advance w → y.pc w = .uploaded p comm req →
    endsLine (y.server.heap p).data = true →
      linksUpload y.server (y.server.heap p) comm req.setStale = true ∧ ∀ q, Settled y q

namespace Serialised

variable {y y' : System} {xs : List Digest} {n w : Nat} {p : ItemPtr}

section

variable (inv : Serialised y xs n)

include inv

/-- The handler writes the code of its item. -/
theorem mac {req : StoreRequest} (here : y.pc w = .stored p req)
    (pc : y'.pc = update y.pc w (.maced p req))
    (server : y'.server = y.server.modify p fun it => { it with mac := itemMac it req.flat }) :
    Serialised y' xs n := by
  have stage : (y.pc w).stage = .unadded p := by rw [here]; rfl
  obtain ⟨alone, leaves, counted⟩ := inv.unadded_phase stage
  have writes : Writes y y' w p (.maced p req) :=
    .of_modify pc server (fun _ => rfl) (fun _ => rfl)
  have tree : y'.server.merkle.Represents xs := server ▸ inv.tree
  refine inv.write writes (.inl stage) (.inl rfl) tree (List.prefix_refl xs) ?_
  exact .unadded w p (by rw [writes.pc_self]; rfl) (alone_of_writes writes alone) leaves
    (writes.totalItems.trans counted)

/-- The handler appends the leaf of its item. -/
theorem append {req : StoreRequest} {mt : Mt}
    (here : y.pc w = .locked p req) (pc : y'.pc = update y.pc w (.added p))
    (server : y'.server = { y.server with merkle := mt })
    (tree : mt.Represents (xs ++ [leafOf (y.server.heap p)])) :
    Serialised y' (xs ++ [leafOf (y.server.heap p)]) n := by
  have stage : (y.pc w).stage = .unadded p := by rw [here]; rfl
  obtain ⟨alone, leaves, counted⟩ := inv.unadded_phase stage
  have heap : y'.server.heap = y.server.heap := by rw [server]
  have writes : Writes y y' w p (.added p) := .of_merkle pc server
  have tree' : y'.server.merkle.Represents (xs ++ [leafOf (y.server.heap p)]) := by
    rw [server]
    exact tree
  refine inv.write writes (.inl stage) (.inr rfl) tree' (List.prefix_append _ _) ?_
  exact .added w p (by rw [writes.pc_self]; rfl) (alone_of_writes writes alone) (by simp [leaves])
    (by simp [← leaves, heap]) (writes.totalItems.trans counted)

/-- Every step that the condition allows returns and keeps the invariant. -/
theorem step {e : Event} (serial : Serial y e) :
    ∃ y' xs' n', step y e = .ok y' ∧ Serialised y' xs' n' := by
  obtain ⟨y', ran⟩ := step_returns inv.tree serial.room
  refine ⟨y', ?_⟩
  cases Change.step ran with
  | moves _ c pc stage held _ marks shrinks =>
    exact ⟨xs, n, ran, inv.move pc stage (fun q pointer =>
      Nat.lt_of_lt_of_le (inv.old _ q (held q pointer).1) shrinks.next) shrinks⟩
  | uploads w p comm req idle pc marks fresh lt shrinks =>
    refine ⟨xs, n, ran, inv.move pc (by rw [idle]; rfl) (fun q pointer => ?_) shrinks⟩
    cases pointer
    exact lt
  | stores w p comm req here ends pc marks server =>
    obtain ⟨links, quiet⟩ := serial.alone w p comm req rfl here ends
    have lt := inv.old w p (by rw [here]; rfl)
    obtain ⟨-, links⟩ := @doStoreItem_links y.server p comm req.setStale req.copy lt links
    exact ⟨xs, n, ran, inv.enter quiet lt pc (server ▸ links)⟩
  | macs w p req here pc marks server => exact ⟨xs, n, ran, inv.mac here pc server⟩
  | adds w p req r mt here pc marks added server =>
    obtain ⟨mt', added', tree⟩ := serial.room.added here inv.tree
    cases added.symm.trans added'
    exact ⟨_, n, ran, inv.append here pc server tree⟩
  | indexes w p here pc marks server =>
    exact ⟨xs, n + 1, ran, inv.leave (by rw [here]; rfl) pc server⟩

/-- Once all handlers have finished, items and leaves are paired. -/
theorem paired (finished : Finished y) : Paired y.server := by
  have settled : ∀ p, Settled y p := by
    intro p w between
    simp [finished w, Pc.Between, Pc.stage] at between
  refine ⟨fun key p found => ?_, fun key key' p p' found found' => ?_⟩
  · rw [inv.tree.leaf, (inv.leaf key p found (settled p)).2]
  · exact inv.distinct key key' p p' found found' (settled p) (settled p')

end

end Serialised

/-! ## Interleavings -/

/-- Items and leaves are paired whenever all handlers have finished, in any
interleaving in which one handler at a time is between storing its item and
writing its index. -/
theorem always_paired (settings : Settings) (events : List Event)
    (serial : Meets step Serial (System.init settings) events) :
    Always step (fun y => Finished y → Paired y.server) (System.init settings) events := by
  have invariant : Always step (fun y => ∃ xs n, Serialised y xs n) (System.init settings)
      events := by
    refine always_of_invariant ?_ ⟨[], 0, serialised_init settings⟩ serial
    rintro y e ⟨xs, n, inv⟩ permitted
    obtain ⟨y', xs', n', ran, inv'⟩ := inv.step permitted
    exact ⟨y', ran, xs', n', inv'⟩
  refine invariant.mono ?_
  rintro y ⟨xs, n, inv⟩ finished
  exact inv.paired finished

/-- An item is linked, and only while the first `n` handlers are outside the window. -/
def StoresAlone (n : Nat) (y : System) (e : Event) : Prop :=
  y.server.merkle.elems < 2 ^ 26 ∧
    (y.pc e.worker).Uploads fun p comm req =>
      linksUpload y.server (y.server.heap p) comm req.setStale = true ∧
        ∀ w < n, (y.pc w).stage = .outside

instance (n : Nat) (y : System) (e : Event) : Decidable (StoresAlone n y e) :=
  inferInstanceAs (Decidable (_ ∧ _))

theorem Few.serial {n : Nat} {y : System} {e : Event} (few : Few n y) (alone : StoresAlone n y e) :
    Serial y e := by
  refine ⟨few.hasRoom alone.1, fun w p comm req same here _ => ?_⟩
  subst same
  have stores := alone.2
  rw [Event.worker, here] at stores
  refine ⟨stores.1, fun q => few.settled fun w lt between => ?_⟩
  rw [Pc.Between, stores.2 w lt] at between
  simp at between

/-- Two `set` commands and a `get`. The second `set` arrives before the item of the first one is
stored and stores its own before the first one gives the mutex back, for which the first one had to
wait until the `get` was done. -/
def alternatingEvents : List Event :=
  [.upload 0 .set (plainRequest [97] [49, 13, 10]), .upload 1 .set (plainRequest [98] [50, 13, 10]),
    .advance 0, .get 2 [97] none true, .advance 0, .advance 2, .advance 0, .advance 2, .advance 2,
    .advance 0, .advance 0, .advance 0, .advance 1, .advance 0, .advance 1, .advance 0,
    .advance 1, .advance 1, .advance 1, .advance 1, .advance 1]

theorem always_paired_sample :
    Always step (fun y => Finished y → Paired y.server) (System.init defaultSettings)
      alternatingEvents := by
  apply always_paired
  refine (Few.init 3 _).meets (by decide) ?_
    (fun _ _ few (alone : StoresAlone 3 _ _) => few.serial alone) (by decide +kernel)
  intro w comm req member
  simp only [alternatingEvents, List.mem_cons, Event.upload.injEq, reduceCtorEq, or_false,
    List.not_mem_nil] at member
  rcases member with ⟨-, -, rfl⟩ | ⟨-, -, rfl⟩ <;> exact fun _ => nofun

/-- Two `set` commands, the second of which stores its item before the first one
reads the counter. -/
def overlappingEvents : List Event :=
  [.upload 0 .set (plainRequest [97] [49, 13, 10]), .upload 1 .set (plainRequest [98] [50, 13, 10]),
    .advance 0, .advance 1] ++ List.replicate 6 (.advance 0) ++ List.replicate 6 (.advance 1)

/-- Both items get the index of the second leaf. -/
theorem overlapping_unpaired :
    ∃ y, run step (System.init defaultSettings) overlappingEvents = .ok y ∧ Finished y ∧
      ¬Paired y.server := by
  have facts : (do
      let y ← run step (System.init defaultSettings) overlappingEvents
      return (y.server.assoc [97], y.server.assoc [98], (y.server.heap 0).mtIndex,
        (y.server.heap 1).mtIndex, (y.pc 0).isIdle, (y.pc 1).isIdle)) =
      (.ok (some 0, some 1, 1, 1, true, true) : Exec _) := by decide +kernel
  obtain ⟨y, ran, facts⟩ := Exec.bind_eq_ok.mp facts
  simp only [Exec.pure_eq_ok, Except.ok.injEq, Prod.mk.injEq] at facts
  obtain ⟨first, second, index, index', idle, idle'⟩ := facts
  refine ⟨y, ran, fun w => ?_, fun paired => ?_⟩
  · by_cases here : w = 0
    · subst w
      exact Pc.eq_idle_of_isIdle idle
    by_cases here' : w = 1
    · subst w
      exact Pc.eq_idle_of_isIdle idle'
    · have absent : ∀ e ∈ overlappingEvents, w ≠ e.worker := by
        simp [overlappingEvents, Event.worker, here, here']
      exact run_pc_of_absent absent ran
  · exact absurd (paired.distinct _ _ 0 1 first second (index.trans index'.symm)) (by decide)

end Kvsev.Concurrent
