import Kvsev.Concurrent.Steps

/-!
# What a lookup finds

`store_item` puts an item into the table before its code is computed, its leaf
appended and its index written. `PublishedFirst` says that no `get` has found an
item before its handler had done all this. The lookups for which it is so are
those that do not hit an item in the window.
-/

namespace Kvsev.Concurrent

open Function Merkle Memory Server Transition

/-- Whatever a `get` has found was authenticated when it was found. -/
def PublishedFirst (y : System) : Prop := ∀ m ∈ y.seen, m = Marks.all

/-- The item that the lookup of the event finds, if the event makes one. -/
def foundBy (y : System) : Event → Option ItemPtr
  | .get w key _ _ =>
    match y.pc w with
    | .idle => if keyMaxLength < key.length then none else visibleItem y.server key
    | _ => none
  | _ => none

/-- A storing step does not link a concatenation, and an appending step finds room
and memory. -/
structure Regular (y : System) (e : Event) : Prop where
  room : HasRoom y e
  plain : ∀ w p comm req, e = .advance w → y.pc w = .uploaded p comm req →
    endsLine (y.server.heap p).data = true →
      concatenates y.server (y.server.heap p) comm req.setStale req.copy = false

/-- The lookup does not hit an item whose handler has not written the index yet. -/
def LooksLate (y : System) (e : Event) : Prop := ∀ p, foundBy y e = some p → Settled y p

/-! ## What is recorded -/

theorem upload_seen (y : System) (w : Nat) (comm : Nread) (req : StoreRequest) :
    (upload y w comm req).seen = y.seen := by
  simp only [upload]
  split
  · rfl
  · split <;> rfl

theorem lookup_seen (y : System) (w : Nat) (key : Key) (touch : Option Nat) (bump : Bool) :
    (lookup y w key touch bump).seen = y.seen ++
      ((if keyMaxLength < key.length then none else visibleItem y.server key).map
        y.marks).toList := by
  simp only [lookup]
  split
  · simp
  · rw [← limitedGet_fst y.server key touch bump]
    cases limitedGet y.server key touch bump with
    | mk found s => cases found <;> simp

theorem advance_seen {y y' : System} {w : Nat} (ran : advance y w = .ok y') : y'.seen = y.seen := by
  unfold advance at ran
  cases here : y.pc w with
  | uploaded p comm req =>
    rw [here] at ran
    cases ran
    simp only [store]
    split <;> rfl
  | maced p req | found p =>
    rw [here] at ran
    cases ran
    simp only [lock]
    split <;> rfl
  | stored p req | locked p req =>
    rw [here] at ran
    obtain ⟨s, _, ran⟩ := Exec.bind_eq_ok.mp ran
    cases ran
    rfl
  | verifying p =>
    rw [here] at ran
    obtain ⟨r, _, ran⟩ := Exec.bind_eq_ok.mp ran
    cases ran
    rfl
  | _ =>
    rw [here] at ran
    cases ran
    rfl

/-- A step records what its lookup finds. -/
theorem step_seen {y y' : System} {e : Event} (ran : step y e = .ok y') :
    y'.seen = y.seen ++ ((foundBy y e).map y.marks).toList := by
  cases e with
  | upload w comm req =>
    dsimp only [step] at ran
    split at ran
    · cases ran
      simp [foundBy, upload_seen]
    · cases ran
      simp [foundBy]
  | get w key touch bump =>
    cases here : y.pc w with
    | idle =>
      simp only [step, here, Except.ok.injEq] at ran
      subst ran
      simp only [foundBy, here]
      exact lookup_seen y w key touch bump
    | _ =>
      simp only [step, here, Except.ok.injEq] at ran
      subst ran
      simp [foundBy, here]
  | advance w => simp [foundBy, advance_seen ran]
  | chore w chore =>
    dsimp only [step] at ran
    split at ran
    · cases ran
      simp [foundBy]
    · cases ran
      simp [foundBy]

theorem assoc_of_foundBy {y : System} {e : Event} {p : ItemPtr} (found : foundBy y e = some p) :
    ∃ key, y.server.assoc key = some p := by
  cases e with
  | get w key touch bump =>
    dsimp only [foundBy] at found
    split at found
    · split at found
      · cases found
      · rw [← limitedGet_fst y.server key touch bump] at found
        exact ⟨key, limitedGet_some (Prod.ext found rfl)⟩
    · cases found
  | _ => cases found

/-! ## Which items are authenticated -/

/-- The record of an item is that of its handler, as long as it has one, and each
item in the table without a record of everything is in the window. -/
structure Tracked (y : System) : Prop where
  tree : ∃ xs, y.server.merkle.Represents xs
  table : WellLinked y.server
  fresh : ∀ p, y.server.next ≤ p → y.marks p = Marks.none
  duty : ∀ w p, (y.pc w).pointer = some p → p < y.server.next ∧ y.marks p = (y.pc w).written
  own : ∀ w w' p, (y.pc w).pointer = some p → (y.pc w').pointer = some p → w = w'
  done : ∀ key p, y.server.assoc key = some p → y.marks p = Marks.all ∨ ∃ w, (y.pc w).Between p

theorem Pc.written_ne_all {c : Pc} {p : ItemPtr} (between : c.Between p) :
    c.written ≠ Marks.all := by
  cases c <;> simp_all [Pc.Between, Pc.stage, Pc.written, Marks.none, Marks.all]

namespace Tracked

variable {y y' : System} {w : Nat} {p : ItemPtr} {c : Pc}

theorem init (settings : Settings) : Tracked (System.init settings) where
  tree := ⟨[], mtCreate_represents⟩
  table := WellLinked.init settings
  fresh := fun _ _ => rfl
  duty := fun _ _ held => nomatch held
  own := fun _ _ _ held => nomatch held
  done := fun _ _ found => nomatch found

section

variable (inv : Tracked y)

include inv

/-- An item in the window is not authenticated. -/
theorem marks_ne_all (between : (y.pc w).Between p) : y.marks p ≠ Marks.all := by
  rw [(inv.duty w p (Pc.pointer_of_between between)).2]
  exact Pc.written_ne_all between

/-- The handler keeps its item, lets go of it or takes a new one, changes the
record of no other one and adds no other one to the table. -/
theorem keep (pc : y'.pc = update y.pc w c)
    (held : ∀ q, c.pointer = some q →
      ((y.pc w).pointer = some q ∨ q = y.server.next) ∧ q < y'.server.next ∧
        y'.marks q = c.written)
    (marks : ∀ q, (y.pc w).pointer ≠ some q → y'.marks q = y.marks q)
    (tree : ∃ xs, y'.server.merkle.Represents xs) (table : WellLinked y'.server)
    (next : y.server.next ≤ y'.server.next)
    (others : ∀ key q, y'.server.assoc key = some q → (y.pc w).pointer ≠ some q →
      ∃ key', y.server.assoc key' = some q)
    (self : ∀ key q, y'.server.assoc key = some q → (y.pc w).pointer = some q →
      y'.marks q = Marks.all ∨ c.Between q) : Tracked y' := by
  have here : y'.pc w = c := by simp [pc]
  have away : ∀ w', w' ≠ w → y'.pc w' = y.pc w' := fun w' ne => by simp [pc, ne]
  -- No other handler has the item of this one.
  have apart : ∀ w' q, w' ≠ w → (y.pc w').pointer = some q → c.pointer ≠ some q := by
    intro w' q ne other pointer
    rcases (held q pointer).1 with own | fresh
    · exact ne (inv.own w' w q other own)
    · exact Nat.lt_irrefl q (Nat.lt_of_lt_of_eq (inv.duty w' q other).1 fresh.symm)
  refine ⟨tree, table, ?_, ?_, ?_, ?_⟩
  · intro q le
    have old := Nat.le_trans next le
    rw [marks q fun pointer => Nat.not_lt_of_le old (inv.duty w q pointer).1]
    exact inv.fresh q old
  · intro w' q pointer
    by_cases same : w' = w
    · subst w'
      rw [here] at pointer ⊢
      exact (held q pointer).2
    · rw [away w' same] at pointer ⊢
      obtain ⟨lt, record⟩ := inv.duty w' q pointer
      refine ⟨Nat.lt_of_lt_of_le lt next, ?_⟩
      rw [marks q fun own => same (inv.own w' w q pointer own), record]
  · intro w₁ w₂ q pointer pointer'
    by_cases same : w₁ = w
    · by_contra ne
      have other : w₂ ≠ w := fun same' => ne (same.trans same'.symm)
      rw [same, here] at pointer
      rw [away w₂ other] at pointer'
      exact apart w₂ q other pointer' pointer
    rw [away w₁ same] at pointer
    by_cases same' : w₂ = w
    · rw [same', here] at pointer'
      exact absurd pointer' (apart w₁ q same pointer)
    · rw [away w₂ same'] at pointer'
      exact inv.own w₁ w₂ q pointer pointer'
  · intro key q found
    by_cases own : (y.pc w).pointer = some q
    · refine (self key q found own).imp_right fun between => ⟨w, here ▸ between⟩
    obtain ⟨key', found⟩ := others key q found own
    rw [marks q own]
    refine (inv.done key' q found).imp_right ?_
    rintro ⟨w', between⟩
    have ne : w' ≠ w := by
      rintro rfl
      exact own (Pc.pointer_of_between between)
    exact ⟨w', away w' ne ▸ between⟩

theorem move (pc : y'.pc = update y.pc w c) (stage : c.stage = (y.pc w).stage)
    (held : ∀ p, c.pointer = some p → (y.pc w).pointer = some p ∧ c.written = (y.pc w).written)
    (marks : y'.marks = y.marks) (shrinks : Shrinks Item.core y.server y'.server) :
    Tracked y' := by
  refine inv.keep pc (fun q pointer => ?_) (fun q _ => by rw [marks]) (shrinks.merkle ▸ inv.tree)
    (shrinks.table inv.table) shrinks.next
    (fun key q found _ => ⟨key, shrinks.assoc key q found⟩) (fun key q found own => ?_)
  · obtain ⟨pointer, written⟩ := held q pointer
    obtain ⟨lt, record⟩ := inv.duty w q pointer
    exact ⟨.inl pointer, Nat.lt_of_lt_of_le lt shrinks.next, by rw [marks, record, written]⟩
  · rw [marks]
    refine (inv.done key q (shrinks.assoc key q found)).imp_right ?_
    rintro ⟨w', between⟩
    cases inv.own w' w q (Pc.pointer_of_between between) own
    rw [Pc.Between, stage]
    exact between

theorem upload {comm : Nread} {req : StoreRequest} (idle : y.pc w = .idle)
    (pc : y'.pc = update y.pc w (.uploaded p comm req)) (marks : y'.marks = y.marks)
    (fresh : p = y.server.next) (lt : p < y'.server.next)
    (shrinks : Shrinks Item.core y.server y'.server) : Tracked y' := by
  refine inv.keep pc (fun q pointer => ?_) (fun q _ => by rw [marks]) (shrinks.merkle ▸ inv.tree)
    (shrinks.table inv.table) shrinks.next
    (fun key q found _ => ⟨key, shrinks.assoc key q found⟩) (fun key q found own => ?_)
  · cases pointer
    exact ⟨.inr fresh, lt, by rw [marks, inv.fresh p (Nat.le_of_eq fresh.symm)]; rfl⟩
  · rw [idle] at own
    cases own

theorem store {comm : Nread} {req : StoreRequest} (here : y.pc w = .uploaded p comm req)
    (plain : concatenates y.server (y.server.heap p) comm req.setStale req.copy = false)
    (pc : y'.pc = update y.pc w (.stored p req)) (marks : y'.marks = y.marks)
    (server : y'.server = (doStoreItem y.server p comm req.setStale req.copy).2) :
    Tracked y' := by
  have pointer : (y.pc w).pointer = some p := by rw [here]; rfl
  obtain ⟨lt, record⟩ := inv.duty w p pointer
  have held : y.server.next ≤ y'.server.next → ∀ q, (Pc.stored p req).pointer = some q →
      ((y.pc w).pointer = some q ∨ q = y.server.next) ∧ q < y'.server.next ∧
        y'.marks q = (Pc.stored p req).written := by
    rintro next q ⟨⟩
    exact ⟨.inl pointer, Nat.lt_of_lt_of_le lt next, by rw [marks, record, here]; rfl⟩
  have self : ∀ key q, y'.server.assoc key = some q → (y.pc w).pointer = some q →
      y'.marks q = Marks.all ∨ (Pc.stored p req).Between q := by
    intro key q _ own
    cases pointer.symm.trans own
    exact .inr (.inl rfl)
  cases links : linksUpload y.server (y.server.heap p) comm req.setStale with
  | false =>
    obtain ⟨-, shrinks⟩ := doStoreItem_shrinks links plain
    rw [← server] at shrinks
    exact inv.keep pc (held shrinks.next) (fun q _ => by rw [marks]) (shrinks.merkle ▸ inv.tree)
      (shrinks.table inv.table) shrinks.next
      (fun key q found _ => ⟨key, shrinks.assoc key q found⟩) self
  | true =>
    obtain ⟨-, links⟩ := @doStoreItem_links y.server p comm req.setStale req.copy lt links
    rw [← server] at links
    refine inv.keep pc (held links.next) (fun q _ => by rw [marks]) (links.merkle ▸ inv.tree)
      (links.table inv.table) links.next (fun key q found own => ⟨key, ?_⟩) self
    refine links.assoc key q (fun same => own ?_) found
    rw [same, links.here] at found
    exact pointer.trans found

/-- The handler writes a part of the record of its item, which stays in the window
until the record is complete. -/
theorem write {record : Marks} (writes : Writes y y' w p c)
    (pointer : (y.pc w).pointer = some p)
    (marks : y'.marks = update y.marks p record)
    (held : c.pointer = some p ∧ c.Between p ∧ record = c.written ∨
      c.pointer = none ∧ record = Marks.all)
    (tree : ∃ xs, y'.server.merkle.Represents xs) : Tracked y' := by
  refine inv.keep writes.pc (fun q own => ?_) (fun q other => ?_) tree (writes.table inv.table)
    (Nat.le_of_eq writes.next.symm) (fun key q found _ => ⟨key, writes.assoc ▸ found⟩)
    (fun key q _ own => ?_)
  · rcases held with ⟨kept, _, written⟩ | ⟨gone, _⟩
    · cases kept.symm.trans own
      exact ⟨.inl pointer, writes.next ▸ (inv.duty w p pointer).1,
        by rw [marks, update_self, written]⟩
    · cases gone.symm.trans own
  · rw [marks, update_of_ne]
    rintro rfl
    exact other pointer
  · cases pointer.symm.trans own
    rcases held with ⟨_, between, _⟩ | ⟨_, all⟩
    · exact .inr between
    · exact .inl (by rw [marks, update_self, all])

/-- Every regular step keeps the record right. -/
theorem step {e : Event} (regular : Regular y e) (ran : step y e = .ok y') : Tracked y' := by
  cases Change.step ran with
  | moves _ c pc stage held _ marks shrinks => exact inv.move pc stage held marks shrinks
  | uploads w p comm req idle pc marks fresh lt shrinks =>
    exact inv.upload idle pc marks fresh lt shrinks
  | stores w p comm req here ends pc marks server =>
    exact inv.store here (regular.plain w p comm req rfl here ends) pc marks server
  | macs w p req here pc marks server =>
    have pointer : (y.pc w).pointer = some p := by rw [here]; rfl
    have record : y.marks p = Marks.none := by rw [(inv.duty w p pointer).2, here]; rfl
    rw [record] at marks
    exact inv.write (.of_modify pc server (fun _ => rfl) (fun _ => rfl)) pointer marks
      (.inl ⟨rfl, .inl rfl, rfl⟩) (server ▸ inv.tree)
  | adds w p req r mt here pc marks added server =>
    have pointer : (y.pc w).pointer = some p := by rw [here]; rfl
    have record : y.marks p = ⟨true, false, false⟩ := by rw [(inv.duty w p pointer).2, here]; rfl
    obtain ⟨xs, tree⟩ := inv.tree
    obtain ⟨mt', added', tree⟩ := regular.room.added here tree
    cases added.symm.trans added'
    rw [record] at marks
    have tree' : ∃ ys, y'.server.merkle.Represents ys := by
      rw [server]
      exact ⟨_, tree⟩
    exact inv.write (.of_merkle pc server) pointer marks (.inl ⟨rfl, .inr rfl, rfl⟩) tree'
  | indexes w p here pc marks server =>
    have pointer : (y.pc w).pointer = some p := by rw [here]; rfl
    have record : y.marks p = ⟨true, true, false⟩ := by rw [(inv.duty w p pointer).2, here]; rfl
    rw [record] at marks
    exact inv.write (.of_modify pc server (fun _ => rfl) (fun _ => rfl)) pointer marks
      (.inr ⟨rfl, rfl⟩) (server ▸ inv.tree)

/-- What a late lookup finds is authenticated. -/
theorem published {e : Event} (late : LooksLate y e)
    (ran : Concurrent.step y e = .ok y') (published : PublishedFirst y) : PublishedFirst y' := by
  intro m member
  rw [step_seen ran, List.mem_append] at member
  rcases member with old | new
  · exact published m old
  · obtain ⟨p, found, rfl⟩ := Option.map_eq_some_iff.mp (Option.mem_toList.mp new)
    obtain ⟨key, entry⟩ := assoc_of_foundBy found
    rcases inv.done key p entry with all | ⟨w, between⟩
    · exact all
    · exact absurd between (late p found w)

/-- If everything that was found is authenticated, the lookup was late. -/
theorem late {e : Event} (ran : Concurrent.step y e = .ok y')
    (published : PublishedFirst y') : LooksLate y e := by
  intro p found w between
  refine inv.marks_ne_all between (published _ ?_)
  rw [step_seen ran, found]
  simp

theorem published_iff (published : PublishedFirst y) {events : List Event}
    (regular : Meets Concurrent.step Regular y events) :
    Throughout Concurrent.step PublishedFirst y events ↔
      Meets Concurrent.step LooksLate y events := by
  induction events generalizing y with
  | nil => exact ⟨fun _ => trivial, fun _ => published⟩
  | cons e events ih =>
    obtain ⟨here, rest⟩ := regular
    constructor
    · rintro ⟨-, later⟩
      obtain ⟨xs, tree⟩ := inv.tree
      obtain ⟨y₁, ran⟩ := step_returns tree here.room
      refine ⟨inv.late ran (later y₁ ran).head, fun y' ran => ?_⟩
      exact (ih (inv.step here ran) (later y' ran).head (rest y' ran)).mp (later y' ran)
    · rintro ⟨late, later⟩
      refine ⟨published, fun y' ran => ?_⟩
      exact (ih (inv.step here ran) (inv.published late ran published) (rest y' ran)).mpr
        (later y' ran)

end

end Tracked

/-! ## Interleavings -/

/-- In a run without concatenations, in which the tree has room, what the lookups
find is authenticated exactly if no lookup hits an item in the window. -/
theorem publishedFirst_throughout_iff (settings : Settings) (events : List Event)
    (regular : Meets step Regular (System.init settings) events) :
    Throughout step PublishedFirst (System.init settings) events ↔
      Meets step LooksLate (System.init settings) events :=
  (Tracked.init settings).published_iff (fun _ member => nomatch member) regular

/-- No concatenation is linked, and the lookup finds no item that one of the first `n` handlers has
in the window. -/
def FindsDone (n : Nat) (y : System) (e : Event) : Prop :=
  y.server.merkle.elems < 2 ^ 26 ∧
    ((y.pc e.worker).Uploads fun p comm req =>
      concatenates y.server (y.server.heap p) comm req.setStale req.copy = false) ∧
    ∀ p ∈ foundBy y e, ∀ w < n, ¬(y.pc w).Between p

instance (n : Nat) (y : System) (e : Event) : Decidable (FindsDone n y e) :=
  inferInstanceAs (Decidable (_ ∧ _))

theorem Few.regular {n : Nat} {y : System} {e : Event} (few : Few n y) (done : FindsDone n y e) :
    Regular y e := by
  refine ⟨few.hasRoom done.1, fun w p comm req same here _ => ?_⟩
  subst same
  have plain := done.2.1
  rwa [Event.worker, here] at plain

theorem Few.looksLate {n : Nat} {y : System} {e : Event} (few : Few n y)
    (done : FindsDone n y e) : LooksLate y e :=
  fun p found => few.settled (done.2.2 p found)

/-- A `get` that finds the item of a finished `set` while another `set` is in the window. -/
def lookupBetween : List Event :=
  [.upload 0 .set (plainRequest [97] [49, 13, 10]), .upload 1 .set (plainRequest [98] [50, 13, 10]),
    .advance 0, .advance 0, .advance 0, .advance 0, .advance 0, .advance 1,
    .get 2 [97] none true, .advance 0, .advance 1, .advance 2, .advance 0, .advance 2, .advance 2]

theorem publishedFirst_throughout_sample :
    (run step (System.init defaultSettings) lookupBetween).map System.seen = .ok [Marks.all] ∧
      Throughout step PublishedFirst (System.init defaultSettings) lookupBetween := by
  have memory : ∀ w comm req, .upload w comm req ∈ lookupBetween →
      ∀ l, req.treeAllocs l ≠ none := by
    intro w comm req member
    simp only [lookupBetween, List.mem_cons, Event.upload.injEq, reduceCtorEq, or_false,
      List.not_mem_nil] at member
    rcases member with ⟨-, -, rfl⟩ | ⟨-, -, rfl⟩ <;> exact fun _ => nofun
  have done : Meets step (FindsDone 3) (System.init defaultSettings) lookupBetween := by
    decide +kernel
  refine ⟨by decide +kernel, (publishedFirst_throughout_iff _ _ ?_).mpr ?_⟩
  · exact (Few.init 3 _).meets (by decide) memory (fun _ _ few => few.regular) done
  · exact (Few.init 3 _).meets (by decide) memory (fun _ _ few => few.looksLate) done

/-- A `get` between `store_item` and the rest of the `set` finds an item without a
code, a leaf or an index. -/
theorem stored_unauthenticated :
    ∃ y, run step (System.init defaultSettings)
        [.upload 0 .set (plainRequest [107] [49, 13, 10]), .advance 0,
          .get 1 [107] none true] = .ok y ∧
      y.seen = [Marks.none] ∧ ¬PublishedFirst y := by
  refine ⟨_, rfl, rfl, fun published => ?_⟩
  exact absurd (published Marks.none (by decide)) (by decide)

end Kvsev.Concurrent
