import Kvsev.Holders.Stamps

/-!
# One client recaches

Of the clients that ask for an item with `mg`, one may be told that it has won and is
to recache it. The item is then marked, and the mark stays until the item is stored
anew, marked as stale by `md` or removed. Under the item lock whoever wins sets the
mark in the same step in which it has looked, unless a look without the lock falls into
this step; without the lock others may look in between.
-/

namespace Kvsev.Holders

open Server Transition Stamped

/-! ## Answers -/

/-- A hit of `mg`, as the client sees it. -/
structure Answer where
  worker : Nat
  key : Key
  item : ItemPtr
  fields : List MetaField

/-- The end of an `mg` that holds the lock of the item it has found or made. -/
def foundAnswer (s : State) (p : ItemPtr) (created : Bool) (flags : List MetaFlag)
    (input : MetaInput) : Option (ItemPtr × List MetaField) :=
  if flags.any MetaFlag.tooLong then none
  else some (p, (metaHit s p created flags { input with bump := false }).1.fields)

/-- `process_mget_command` under the item lock. -/
def lockedAnswer (s : State) (key : Key) (flags : List MetaFlag) (input : MetaInput) :
    Option (ItemPtr × List MetaField) :=
  match doItemGet s key false with
  | (some p, s) =>
    if itRefcountLimit < (s.heap p).refcount then none else foundAnswer s p false flags input
  | (none, s) =>
    if flags.any MetaFlag.vivifies then
      match doItemAlloc s key 0 0 2 input.alloc with
      | (some p, s) =>
        let s := doItemLink (s.modify p fun it => { it with data := [13, 10] }) p
        foundAnswer s p true flags input
      | (none, _) => none
    else none

/-- `mg` gets past its checks and takes the item lock. -/
def TakesLock (y : System) (w : Nat) (key : Key) (flags : List MetaFlag) : Prop :=
  y.code[w]? = some .idle ∧
    ¬(keyMaxLength < key.length ∨ flags = [] ∨ ¬(flags.map MetaFlag.letter).Nodup) ∧
    flags.any MetaFlag.locks = true

instance (y : System) (w : Nat) (key : Key) (flags : List MetaFlag) :
    Decidable (TakesLock y w key flags) :=
  inferInstanceAs (Decidable (_ ∧ _ ∧ _))

/-- The hit that a step answers. Without the lock only the marks are given. -/
def answerOf (y : System) : Event → Option Answer
  | .mget w key flags input _ =>
    if TakesLock y w key flags then
      (lockedAnswer y.server key flags input).map fun (p, fields) => ⟨w, key, p, fields⟩
    else none
  | .advance w =>
    match y.code[w]? with
    | some (.reading (.mget flags) p) =>
      if flags.any MetaFlag.tooLong then none
      else some ⟨w, (y.server.heap p).key, p, (metaMarks (y.server.heap p)).1⟩
    | _ => none
  | _ => none

/-- The step stores the key anew, marks its item as stale, or removes it. -/
def Resets (key : Key) (y : System) (e : Event) : Prop :=
  (∃ y', step y e = .ok y' ∧ y'.server.assoc key ≠ y.server.assoc key) ∨
    ∃ w flags, e = .command w (.mdelete key flags) ∧ flags.setStale = true

theorem Pc.item_of_reader {pc : Pc} {r : Reader} {q : ItemPtr} (reads : pc.reader = some (r, q)) :
    pc.item = some q := by
  cases pc with
  | found r' q' | reading r' q' =>
    cases reads
    rfl
  | _ => cases reads

/-! ## Races -/

/-- The item that a worker has won and not marked yet. -/
def Pc.won : Pc → Option ItemPtr
  | marking p | setting p _ => some p
  | _ => none

/-- Some worker has won the item and has not marked it yet. -/
def Winning (y : System) (p : ItemPtr) : Prop :=
  ∃ (w : Nat) (pc : Pc), y.code[w]? = some pc ∧ pc.won = some p

/-- `mg` looks at the marks of this item in the step. -/
def Examines (y : System) (p : ItemPtr) : Event → Prop
  | .mget w key flags _ _ => TakesLock y w key flags ∧ y.server.assoc key = some p
  | .advance w => ∃ flags, y.code[w]? = some (.reading (.mget flags) p)
  | _ => False

/-- `mg` does not look at an item while another one has won it and not marked it yet,
and without the lock it does not find a mark on an item that has left the table. -/
structure Unraced (y : System) (e : Event) : Prop where
  alone : ∀ p, Examines y p e → ¬Winning y p
  current : ∀ w flags p, e = .advance w → y.code[w]? = some (.reading (.mget flags) p) →
    (y.server.heap p).stale = true → (y.server.heap p).tokenSent = false →
      y.server.assoc (y.server.heap p).key = some p

/-! ## What a hit says -/

theorem metaFields_fields (s : State) (created fetched : Bool) (it : Item) (won : Bool)
    (flags : List MetaFlag) :
    MetaField.win ∉ (metaFields s created fetched it won flags).2.2 := by
  induction flags generalizing it won with
  | nil => exact List.not_mem_nil
  | cons flag flags ih =>
    have emitted : ∀ field, field ≠ MetaField.win →
        MetaField.win ∉ field :: (metaFields s created fetched it won flags).2.2 := by
      intro field other mem
      rcases List.mem_cons.mp mem with same | later
      · exact other same.symm
      · exact ih it won later
    cases flag with
    | newTtl exptime => exact ih _ _
    | vivify exptime =>
      simp only [metaFields]
      split
      · exact ih _ _
      · exact ih _ _
    | recache time | value | noUpdate | noReply => exact ih _ _
    | _ => exact emitted _ (by simp)

/-- Nobody wins an item that has a winner. -/
theorem metaFields_won (s : State) (fetched : Bool) (it : Item) (flags : List MetaFlag)
    (sent : it.tokenSent = true) : (metaFields s false fetched it false flags).2.1 = false := by
  induction flags generalizing it with
  | nil => rfl
  | cons flag flags ih =>
    cases flag with
    | newTtl exptime => exact ih { it with exptime } sent
    | recache time =>
      simp only [metaFields, sent]
      exact ih it sent
    | _ => exact ih it sent

@[simp] theorem metaMarks_win {it : Item} :
    MetaField.win ∈ (metaMarks it).1 ↔ it.stale = true ∧ it.tokenSent = false := by
  simp [metaMarks]

@[simp] theorem metaMarks_sent {it : Item} :
    MetaField.tokenSent ∈ (metaMarks it).1 ↔ it.tokenSent = true := by
  simp [metaMarks]

section

variable {s : State} {p : ItemPtr} {created : Bool} {flags : List MetaFlag} {input : MetaInput}

/-- Whoever is told to have won has marked the item. -/
theorem metaHit_marks (won : MetaField.win ∈ (metaHit s p created flags input).1.fields) :
    ((metaHit s p created flags input).2.heap p).tokenSent = true := by
  have others := metaFields_fields s created input.fetched (s.heap p) false flags
  simp only [metaHit, State.modify_heap_self] at won ⊢
  generalize metaFields s created input.fetched (s.heap p) false flags = found at others won ⊢
  simp only [List.mem_append, List.mem_ite_nil_right, List.mem_singleton, reduceCtorEq, others,
    and_false, and_true, false_or] at won
  rw [won, Bool.or_true]

/-- A marked item is not won again, and the client is told. -/
theorem metaHit_sent (sent : (s.heap p).tokenSent = true) :
    MetaField.win ∉ (metaHit s p false flags input).1.fields ∧
      MetaField.tokenSent ∈ (metaHit s p false flags input).1.fields := by
  have others := metaFields_fields s false input.fetched (s.heap p) false flags
  have won := metaFields_won s input.fetched (s.heap p) flags sent
  obtain ⟨exptime, same⟩ := metaFields_item s false input.fetched (s.heap p) false flags
  simp only [metaHit, same, won, sent]
  generalize metaFields s false input.fetched (s.heap p) false flags = found at others
  constructor
  · simp [others]
  · simp

end

section

variable {y : System} {key : Key} {flags : List MetaFlag} {input : MetaInput} {p : ItemPtr}
  {fields : List MetaField}

theorem doItemBump_assoc (s : State) (bumps : List ItemPtr) (p : ItemPtr) (bump : Bump) :
    (doItemBump s bumps p bump).1.assoc = s.assoc := by
  cases bump with
  | _ => rfl

/-- An answer under the lock is about the item that is in the table afterwards. It was
there before, or it is new. -/
theorem lockedAnswer_found (wf : Tokened False y.server)
    (answered : lockedAnswer y.server key flags input = some (p, fields)) (bump : Bump) :
    ∃ (s : State) (created : Bool), Tokened False s ∧ s.assoc key = some p ∧
      flags.any MetaFlag.tooLong = false ∧
      fields = (metaHit s p created flags { input with bump := false }).1.fields ∧
      mgetLocked y key flags input bump =
        mgetFound { y with server := s } p created flags input bump ∧
      (y.server.next ≤ p ∨ created = false ∧ y.server.assoc key = some p ∧
        ((y.server.heap p).tokenSent = true → (s.heap p).tokenSent = true)) := by
  have short : ∀ {s : State} {q : ItemPtr} {created : Bool},
      foundAnswer s q created flags input = some (p, fields) →
      flags.any MetaFlag.tooLong = false ∧ q = p ∧
        fields = (metaHit s p created flags { input with bump := false }).1.fields := by
    intro s q created found
    simp only [foundAnswer] at found
    split at found
    · cases found
    · rename_i short
      cases found
      exact ⟨by simpa using short, rfl, rfl⟩
  simp only [lockedAnswer] at answered
  simp only [mgetLocked]
  rcases ran : doItemGet y.server key false with ⟨found, s₁⟩
  rw [ran] at answered
  obtain ⟨acts, inside⟩ := Acts.doItemGet (n := y.server.next) (t := .none) (b := false) ran
  have got := Quiet.of_acts wf acts
  cases found with
  | some q =>
    simp only at answered ⊢
    split at answered
    · cases answered
    rename_i calm
    obtain ⟨fits, rfl, rfl⟩ := short answered
    obtain ⟨before, after, -⟩ := inside q rfl
    have old := wf.old key q before
    rw [if_neg calm]
    refine ⟨s₁, false, got.wellFormed, after, fits, rfl, rfl, .inr ⟨rfl, before, ?_⟩⟩
    exact got.renews.mark q old id
  | none =>
    simp only at answered ⊢
    split at answered
    · rename_i vivifies
      rw [if_pos vivifies]
      rcases made : doItemAlloc s₁ key 0 0 2 input.alloc with ⟨found, s₂⟩
      rw [made] at answered
      cases found with
      | none => cases answered
      | some q =>
        obtain ⟨fits, rfl, rfl⟩ := short answered
        obtain ⟨rfl, lt⟩ := Acts.lt_next_modify made fun it => { it with data := [13, 10] }
        have acts : Acts s₁.next { Targets.none with linked := (· = s₁.next) } true s₁ _ :=
          .fresh (.one (.written made fun it => { it with data := [13, 10] }))
            (.link (.inl rfl) lt)
        have linked := Renewed.of_acts got.wellFormed (fun no => no.elim) acts
        obtain ⟨-, _, -, -, -, new⟩ := doItemAlloc_some made
        refine ⟨_, true, linked.wellFormed, ?_, fits, rfl, rfl, .inl got.renews.next⟩
        simp [doItemLink, new, newItem]
    · cases answered

/-- With a hit under the lock the table stays as it is, and a win is marked. -/
theorem mgetFound_assoc (fits : flags.any MetaFlag.tooLong = false) (created : Bool)
    (bump : Bump) : (mgetFound y p created flags input bump).server.assoc = y.server.assoc := by
  simp only [mgetFound, fits, Bool.false_eq_true, if_false, doItemBump_assoc]
  rfl

theorem mgetFound_marks (fits : flags.any MetaFlag.tooLong = false) (created : Bool) (bump : Bump)
    (won : MetaField.win ∈
      (metaHit y.server p created flags { input with bump := false }).1.fields) :
    ((mgetFound y p created flags input bump).server.heap p).tokenSent = true := by
  simp only [mgetFound, fits, Bool.false_eq_true, if_false]
  cases (if flags.contains .noUpdate then Bump.none else bump) with
  | none => exact metaHit_marks won
  | _ => simpa [doItemBump, lruBumpAsync, refcountIncr, refcountDecr] using metaHit_marks won

theorem step_locked {w : Nat} (lock : TakesLock y w key flags) (bump : Bump) :
    step y (.mget w key flags input bump) = .ok (mgetLocked y key flags input bump) := by
  obtain ⟨idle, checked, locks⟩ := lock
  simp only [step, starting, idle, mget, if_neg checked, if_pos locks]

end

/-! ## After a win -/

/-- What the workers read exists. -/
structure Known (y : System) : Prop extends Sound False y where
  readers : ∀ (w : Nat) (pc : Pc) (r : Reader) (q : ItemPtr), y.code[w]? = some pc →
    pc.reader = some (r, q) → q < y.server.next

/-- The item of the key was won, and the mark is there or on its way. Whoever reads
another item of that key had found it when `y₁` was reached. -/
structure Won (y₁ : System) (key : Key) (p : ItemPtr) (y : System) : Prop extends Known y where
  found : y.server.assoc key = some p
  marked : (y.server.heap p).tokenSent = true ∨ Winning y p
  begun : ∀ (w : Nat) (pc : Pc) (r : Reader) (q : ItemPtr), y.code[w]? = some pc →
    pc.reader = some (r, q) → (y.server.heap q).key = key → q = p ∨
      ∃ pc₁, y₁.code[w]? = some pc₁ ∧ pc₁.reader = some (r, q)

variable {y y' y₁ : System} {e : Event} {key : Key} {p : ItemPtr}

theorem Known.init (settings : Settings) (workers : Nat) :
    Known (System.init settings workers) where
  toSound := Sound.init (fun no => no.elim) workers
  readers := by
    intro w pc r q here reads
    simp only [System.init, List.getElem?_replicate] at here
    split at here
    · cases here
      cases reads
    · cases here

theorem Known.renewed (known : Known y) (ran : step y e = .ok y') :
    Renewed False (targets y e) y.server y'.server :=
  known.toSound.renewed (fun no => no.elim) ran

theorem Known.step (known : Known y) (ran : step y e = .ok y') : Known y' where
  toSound := known.toSound.step (fun no => no.elim) ran
  readers := by
    intro w pc r q here reads
    refine Nat.lt_of_lt_of_le ?_ (known.renewed ran).renews.next
    rcases step_acquires ran here reads with ⟨pc₀, before, reading⟩ | ⟨key, found⟩
    · exact known.readers w pc₀ r q before reading
    · exact known.tokened.old key q found

/-- Only `md` takes a mark away, and of the item it finds under its key. -/
theorem targets_cleared (cleared : (targets y e).cleared p) :
    ∃ w key flags, e = .command w (.mdelete key flags) ∧ flags.setStale = true ∧
      y.server.assoc key = some p := by
  cases e with
  | command w command =>
    cases command with
    | mdelete key flags => exact ⟨w, key, flags, rfl, cleared⟩
    | _ => exact cleared.elim
  | _ => exact cleared.elim

/-- A worker that has won goes on to mark the item. -/
theorem winning_step (ran : step y e = .ok y') (winning : Winning y p) :
    Winning y' p ∨ (y'.server.heap p).tokenSent = true := by
  obtain ⟨w, pc, here, won⟩ := winning
  cases step_moves ran with
  | stay same => exact .inl ⟨w, pc, same ▸ here, won⟩
  | move w' pc₀ pc' before turn reads code =>
    by_cases mine : w = w'
    · subst mine
      obtain rfl := Option.some.inj (here.symm.trans before)
      rcases turn with rfl | rfl
      · cases won
      have inside := (List.getElem?_eq_some_iff.mp before).1
      obtain rfl := Except.ok.inj ran
      cases pc with
      | marking q =>
        obtain rfl := Option.some.inj won
        refine .inl ⟨w, .setting q (bitsOf (y.server.heap q)), ?_, rfl⟩
        simp only [advance, here, System.moveTo, List.getElem?_set_self inside]
      | setting q bits =>
        obtain rfl := Option.some.inj won
        refine .inr ?_
        simp [advance, here, System.respond, setTokenSent]
      | _ => cases won
    · rw [← List.getElem?_set_ne (Ne.symm mine), ← code] at here
      exact .inl ⟨w, pc, here, won⟩

namespace Won

theorem step (won : Won y₁ key p y) (kept : ¬Resets key y e) (ran : step y e = .ok y') :
    Won y₁ key p y' := by
  have ren := won.toKnown.renewed ran
  have old := won.tokened.old key p won.found
  have own : (y.server.heap p).key = key := won.tokened.key key p won.found
  refine { toKnown := won.toKnown.step ran, found := ?_, marked := ?_, begun := ?_ }
  · by_contra other
    exact kept (.inl ⟨y', ran, by rw [won.found]; exact other⟩)
  · rcases won.marked with marked | winning
    · refine .inl (ren.renews.mark p old (fun cleared => kept (.inr ?_)) marked)
      obtain ⟨w, k, flags, rfl, stale, found⟩ := targets_cleared cleared
      have his : (y.server.heap p).key = k := won.tokened.key k p found
      exact ⟨w, flags, by rw [← own, his], stale⟩
    · exact (winning_step ran winning).symm
  · intro w pc r q here reads mine
    rcases step_acquires ran here reads with ⟨pc₀, before, reading⟩ | ⟨k, found⟩
    · have same : (y'.server.heap q).key = (y.server.heap q).key :=
        ren.renews.key q (won.readers w pc₀ r q before reading)
      exact won.begun w pc₀ r q before reading (same ▸ mine)
    have same : (y'.server.heap q).key = (y.server.heap q).key :=
      ren.renews.key q (won.tokened.old k q found)
    have his : (y.server.heap q).key = k := won.tokened.key k q found
    rw [same, his] at mine
    rw [mine, won.found] at found
    exact .inl (Option.some.inj found).symm

/-- Under the lock the item is found marked. -/
theorem locked {w : Nat} {flags : List MetaFlag} {input : MetaInput} {bump : Bump} {q : ItemPtr}
    {fields : List MetaField} (won : Won y₁ key p y)
    (kept : ¬Resets key y (.mget w key flags input bump))
    (unraced : Unraced y (.mget w key flags input bump)) (lock : TakesLock y w key flags)
    (answered : lockedAnswer y.server key flags input = some (q, fields)) :
    MetaField.win ∉ fields ∧ MetaField.tokenSent ∈ fields := by
  obtain ⟨s, created, wf, found, fits, rfl, same, new | ⟨rfl, before, sent⟩⟩ :=
    lockedAnswer_found won.tokened answered bump
  · -- A new item takes the place of the one that was won.
    refine absurd (.inl ⟨_, step_locked lock bump, ?_⟩) kept
    have old : p < y.server.next := won.tokened.old key p won.found
    rw [same, mgetFound_assoc fits, found, won.found]
    intro both
    have below : q < y.server.next := Option.some.inj both ▸ old
    exact absurd below (Nat.not_lt.mpr new)
  · obtain rfl := Option.some.inj (won.found.symm.trans before)
    have alone := unraced.alone p ⟨lock, won.found⟩
    exact metaHit_sent (sent (won.marked.resolve_right alone))

/-- A later hit is not another win. It is told of the mark, unless it is about an item
found before the win that is no longer in the table. -/
theorem answer {b : Answer} (won : Won y₁ key p y) (kept : ¬Resets key y e)
    (unraced : Unraced y e) (answered : answerOf y e = some b) (mine : b.key = key) :
    MetaField.win ∉ b.fields ∧ (MetaField.tokenSent ∈ b.fields ∨ b.item ≠ p ∧
      ∃ pc, y₁.code[b.worker]? = some pc ∧ pc.item = some b.item) := by
  cases e with
  | mget w k flags input bump =>
    simp only [answerOf] at answered
    split at answered
    · rename_i lock
      obtain ⟨⟨q, fields⟩, found, rfl⟩ := Option.map_eq_some_iff.mp answered
      obtain rfl : k = key := mine
      obtain ⟨lost, sent⟩ := won.locked kept unraced lock found
      exact ⟨lost, .inl sent⟩
    · cases answered
  | advance w =>
    simp only [answerOf] at answered
    split at answered
    · rename_i flags q here
      split at answered
      · cases answered
      obtain rfl := Option.some.inj answered
      have own : (y.server.heap q).key = key := mine
      by_cases same : q = p
      · subst same
        have alone := unraced.alone q ⟨flags, here⟩
        have sent := won.marked.resolve_right alone
        exact ⟨by simp [sent], .inl (by simp [sent])⟩
      refine ⟨fun win => same ?_, .inr ⟨same, ?_⟩⟩
      · obtain ⟨stale, unsent⟩ := metaMarks_win.mp win
        have inside := unraced.current w flags q rfl here stale unsent
        rw [own, won.found] at inside
        exact (Option.some.inj inside).symm
      · obtain ⟨pc, before, reads⟩ :=
          (won.begun w _ (.mget flags) q here rfl own).resolve_left same
        exact ⟨pc, before, Pc.item_of_reader reads⟩
    · cases answered
  | _ => cases answered

/-- With a win the item is in the table, and the mark is there or on its way. -/
theorem of_answer {a : Answer} (known : Known y) (unraced : Unraced y e)
    (answered : answerOf y e = some a) (won : MetaField.win ∈ a.fields)
    (ran : Holders.step y e = .ok y') : Won y' a.key a.item y' := by
  suffices y'.server.assoc a.key = some a.item ∧
      ((y'.server.heap a.item).tokenSent = true ∨ Winning y' a.item) from
    { toKnown := known.step ran, found := this.1, marked := this.2
      begun := fun w pc r q here reads _ => .inr ⟨pc, here, reads⟩ }
  cases e with
  | mget w k flags input bump =>
    simp only [answerOf] at answered
    split at answered
    · rename_i lock
      obtain ⟨⟨q, fields⟩, hit, rfl⟩ := Option.map_eq_some_iff.mp answered
      obtain ⟨s, created, wf, found, fits, rfl, same, -⟩ :=
        lockedAnswer_found known.tokened hit bump
      rw [step_locked lock, same] at ran
      obtain rfl := Except.ok.inj ran
      refine ⟨by rw [mgetFound_assoc fits]; exact found, .inl ?_⟩
      exact mgetFound_marks (y := { y with server := s }) fits created bump
        won
    · cases answered
  | advance w =>
    simp only [answerOf] at answered
    split at answered
    · rename_i flags q here
      split at answered
      · cases answered
      rename_i fits
      obtain rfl := Option.some.inj answered
      obtain ⟨stale, unsent⟩ := metaMarks_win.mp won
      have inside := unraced.current w flags q rfl here stale unsent
      have wins : (metaMarks (y.server.heap q)).2 = true := by simp [metaMarks, stale, unsent]
      have moved : y' = y.moveTo w (.marking q) := by
        obtain rfl := Except.ok.inj ran
        simp only [advance, here, read, if_neg fits, if_pos wins]
      subst moved
      refine ⟨inside, .inr ⟨w, .marking q, ?_, rfl⟩⟩
      exact List.getElem?_set_self (List.getElem?_eq_some_iff.mp here).1
    · cases answered
  | _ => cases answered

end Won

/-- Between two steps that store a key anew, mark its item as stale or remove it, at most
one `mg` is told that it has won. Later hits are told that someone has, unless they had
found an earlier item of the key before. -/
theorem single_recache_winner (settings : Settings) (workers : Nat) (before after : List Moment)
    {m : Moment} {y y₁ : System} {a : Answer} (apart : Moment.Apart (before ++ m :: after))
    (reached : run Moment.step (System.init settings workers) before = .ok y)
    (answered : answerOf y m.event = some a) (won : MetaField.win ∈ a.fields)
    (ran : m.step y = .ok y₁)
    (unraced : Meets Moment.step (fun x m => Unraced x m.event) (System.init settings workers)
      (before ++ m :: after))
    (interval : Meets Moment.step (fun x m => ¬Resets a.key x m.event) y₁ after) :
    Meets Moment.step (fun x m => ∀ b, answerOf x m.event = some b → b.key = a.key →
      MetaField.win ∉ b.fields ∧ (MetaField.tokenSent ∈ b.fields ∨
        y₁.server.assoc a.key ≠ some b.item ∧
          ∃ pc, y₁.code[b.worker]? = some pc ∧ pc.item = some b.item)) y₁ after := by
  obtain ⟨es, split⟩ := apart.exists_events
  obtain ⟨before, rest, -, rfl, tail⟩ := List.map_eq_append_iff.mp split
  obtain ⟨e, after, -, rfl, rfl⟩ := List.map_eq_cons_iff.mp tail
  rw [run_map fun _ _ => rfl] at reached
  rw [← List.map_cons, ← List.map_append, meets_map fun _ _ => rfl] at unraced
  rw [meets_map fun _ _ => rfl] at interval ⊢
  obtain ⟨first, winning, later⟩ := unraced.of_append reached
  have known : Known y := holds_of_run (fun _ _ _ known _ ran => known.step ran)
    (Known.init settings workers) first reached
  have start := Won.of_answer known winning answered won ran
  refine Meets.of_invariant (P := Won y₁ a.key a.item)
    (fun _ _ _ won permitted ran => won.step permitted.2 ran) ?_ start
    ((later y₁ ran).and interval)
  intro x e' won ⟨unraced, kept⟩ b answered mine
  obtain ⟨lost, sent | ⟨other, begun⟩⟩ := won.answer kept unraced answered mine
  · exact ⟨lost, .inl sent⟩
  · refine ⟨lost, .inr ⟨fun same => other ?_, begun⟩⟩
    exact (Option.some.inj (start.found.symm.trans same)).symm

/-- A key is stored and marked as stale. -/
def staleKey : List Event :=
  [.upload 0 .text .set (plainRequest [110] [53, 13, 10]), .complete 0 0, .advance 0,
    .command 0 (.mdelete [110] ⟨false, true, none⟩)]

/-- `mg` with one flag. -/
def asking (w : Nat) (flag : MetaFlag) : Event :=
  .mget w [110] [flag] ⟨(plainRequest [] []).alloc, false, false⟩ .none

/-- Where no worker has just won and none looks at an item without the lock, there is
no race. -/
theorem unraced_of_calm (calm : ∀ pc ∈ y.code, pc.won = none)
    (locked : ∀ w flags p, e = .advance w → y.code[w]? = some (.reading (.mget flags) p) →
      (y.server.heap p).tokenSent = true) : Unraced y e where
  alone := by
    rintro p - ⟨w, pc, here, won⟩
    rw [calm pc (List.mem_of_getElem? here)] at won
    cases won
  current := by
    intro w flags p own here stale unsent
    rw [locked w flags p own here] at unsent
    cases unsent

theorem not_resets (ran : step y e = .ok y') (same : y'.server.assoc key = y.server.assoc key)
    (other : ∀ w flags, e ≠ .command w (.mdelete key flags)) : ¬Resets key y e := by
  rintro (⟨y'', again, changed⟩ | ⟨w, flags, own, -⟩)
  · obtain rfl := Except.ok.inj (ran.symm.trans again)
    exact changed same
  · exact other w flags own

theorem single_recache_winner_sample :
    ∃ y y₁ a, run Moment.step (System.init defaultSettings 2) (staleKey.map .alone) = .ok y ∧
      answerOf y (asking 0 .hit) = some a ∧ MetaField.win ∈ a.fields ∧
      step y (asking 0 .hit) = .ok y₁ ∧
      Meets Moment.step (fun x m => ∀ b, answerOf x m.event = some b → b.key = a.key →
        MetaField.win ∉ b.fields ∧ (MetaField.tokenSent ∈ b.fields ∨
          y₁.server.assoc a.key ≠ some b.item ∧
            ∃ pc, y₁.code[b.worker]? = some pc ∧ pc.item = some b.item)) y₁
        [.alone (asking 1 .value), .alone (.advance 1), .alone (.advance 1)] := by
  obtain ⟨y, y₁, a, reached, answered, won, ran, interval⟩ :
      ∃ y y₁ a, run Moment.step (System.init defaultSettings 2) (staleKey.map .alone) = .ok y ∧
        answerOf y (asking 0 .hit) = some a ∧ MetaField.win ∈ a.fields ∧
        step y (asking 0 .hit) = .ok y₁ ∧
        Meets Moment.step (fun x m => ¬Resets a.key x m.event) y₁
          [.alone (asking 1 .value), .alone (.advance 1), .alone (.advance 1)] := by
    refine ⟨_, _, _, rfl, rfl, by decide, rfl, not_resets rfl rfl (by rintro _ _ ⟨⟩), ?_⟩
    rintro x₁ ⟨⟩
    refine ⟨not_resets rfl rfl (by rintro _ _ ⟨⟩), ?_⟩
    rintro x₂ ⟨⟩
    exact ⟨not_resets rfl rfl (by rintro _ _ ⟨⟩), fun _ _ => trivial⟩
  refine ⟨y, y₁, a, reached, answered, won, ran,
    single_recache_winner (m := .alone (asking 0 .hit)) defaultSettings 2 _ _ ?_ reached answered
      won ran ?_ interval⟩
  · exact Moment.apart_map (staleKey ++ [asking 0 .hit, asking 1 .value, .advance 1, .advance 1])
  refine ⟨unraced_of_calm (by decide) (by rintro _ _ _ ⟨⟩), ?_⟩
  rintro x₁ ⟨⟩
  refine ⟨unraced_of_calm (by decide) (by rintro _ _ _ ⟨⟩), ?_⟩
  rintro x₂ ⟨⟩
  refine ⟨unraced_of_calm (by decide) (by rintro _ _ _ ⟨⟩ ⟨⟩), ?_⟩
  rintro x₃ ⟨⟩
  refine ⟨unraced_of_calm (by decide) (by rintro _ _ _ ⟨⟩), ?_⟩
  rintro x₄ ⟨⟩
  refine ⟨unraced_of_calm (by decide) (by rintro _ _ _ ⟨⟩), ?_⟩
  rintro x₅ ⟨⟩
  refine ⟨unraced_of_calm (by decide) (by rintro _ _ _ ⟨⟩), ?_⟩
  rintro x₆ ⟨⟩
  refine ⟨unraced_of_calm (by decide) (by rintro _ _ _ ⟨⟩ ⟨⟩), ?_⟩
  rintro x₇ ⟨⟩
  exact ⟨unraced_of_calm (by decide) (by rintro _ _ _ ⟨⟩ ⟨⟩; rfl), fun _ _ => trivial⟩

/-- Two clients ask for a stale item without the lock. Both have looked at the marks
before either has set its own, and both are told that they have won. -/
theorem both_won :
    ∃ y y₁ a b, run step (System.init defaultSettings 2) (staleKey ++
        [asking 0 .value, asking 1 .value, .advance 0, .advance 1]) = .ok y ∧
      answerOf y (.advance 0) = some a ∧ MetaField.win ∈ a.fields ∧
      step y (.advance 0) = .ok y₁ ∧ answerOf y₁ (.advance 1) = some b ∧ b.key = a.key ∧
      MetaField.win ∈ b.fields :=
  ⟨_, _, _, _, rfl, rfl, by decide, rfl, rfl, rfl, by decide⟩

end Kvsev.Holders
