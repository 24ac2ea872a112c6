import Kvsev.Server.Alignment

/-!
# Superseded items

`complete_nread_ascii` appends a leaf for every storage command and never updates
one, and neither `delete` nor a `set` that finds no memory and drops the old item
touches the tree. A `History` runs the storage commands and `delete` and remembers
the code and the index of each item that a command replaced or deleted. Rollback
resistance would be `Fresh`: the tree accepts none of them any more.
-/

namespace Kvsev.Server

open Merkle Memory Transition

/-- The text commands that replace or delete items. -/
inductive TextCommand where
  | update (comm : Nread) (req : StoreRequest)
  | delete (key : Key)

namespace TextCommand

def key : TextCommand → Key
  | update _ req => req.key
  | delete key => key

/-- The reply and the state after a command. -/
def exec (s : State) : TextCommand → Exec (String × State)
  | update comm req => processUpdateCommand s comm req
  | delete key => .ok (processDeleteCommand s key)

def operation : TextCommand → Operation
  | update comm req => .update comm req
  | delete key => .delete key

end TextCommand

/-- What an attacker who restores an item has to bring back. -/
structure Superseded where
  key : Key
  mac : Vector UInt8 32
  mtIndex : Nat

/-- A server and the items that commands have replaced or deleted so far. -/
structure History where
  state : State
  superseded : List Superseded

def History.init (settings : Settings) : History := ⟨State.init settings, []⟩

/-- A `set` without memory for its item deletes the old one. -/
def TextCommand.Drops (s : State) : TextCommand → Prop
  | update comm req =>
    ¬(keyMaxLength < req.key.length ∨ intMax < req.data.length) ∧
      (uploadItem s req req.data).1 = none ∧ comm = .set ∧ liveItem s req.key ≠ none
  | delete _ => False

instance (s : State) (c : TextCommand) : Decidable (c.Drops s) := by
  cases c <;> unfold TextCommand.Drops <;> infer_instance

/-- The item that a command with this reply takes out of the table. -/
def retired (s : State) (c : TextCommand) (reply : String) : List Superseded :=
  if reply = "STORED" ∨ reply = "DELETED" ∨ c.Drops s then
    match s.assoc c.key with
    | none => []
    | some p => [⟨c.key, (s.heap p).mac, (s.heap p).mtIndex⟩]
  else []

def historyStep (h : History) (c : TextCommand) : Exec History := do
  let (reply, state) ← c.exec h.state
  return ⟨state, h.superseded ++ retired h.state c reply⟩

/-- The tree accepts a superseded item only where the key's current item has the
same code at the same index. -/
def Fresh (h : History) : Prop :=
  ∀ old ∈ h.superseded,
    mtVerify h.state.merkle (some old.mac.toList) 16 old.mtIndex = .ok .success →
      ∃ p, h.state.assoc old.key = some p ∧
        (h.state.heap p).mac.toList.take 16 = old.mac.toList.take 16 ∧
        (h.state.heap p).mtIndex = old.mtIndex

/-- A storage command for a key with an item that is refused or not stored. -/
def UpdateSpares (s : State) (comm : Nread) (req : StoreRequest) : Prop :=
  match uploadItem s req req.data with
  | (none, _) => comm ≠ .set ∨ liveItem s req.key = none
  | (some p, s') =>
    endsLine req.data = false ∨
      (linksUpload s' (s'.heap p) comm req.setStale = false ∧
        concatenates s' (s'.heap p) comm req.setStale req.copy = false)

/-- Commands that neither replace nor delete an item. -/
def Spares (s : State) (c : TextCommand) : Prop :=
  keyMaxLength < c.key.length ∨ s.assoc c.key = none ∨
    match c with
    | .update comm req => intMax < req.data.length ∨ UpdateSpares s comm req
    | .delete key => liveItem s key = none

/-! ## Runs without replacement -/

theorem storeReply_stored {r : StoreItemType} (not : r ≠ .stored) :
    storeReply r ≠ "STORED" ∧ storeReply r ≠ "DELETED" := by
  cases r <;> first | exact absurd rfl not | decide

variable {s s' : State} {comm : Nread} {req : StoreRequest} {reply : String}

theorem completeNreadAscii_spares {p : ItemPtr} (spares : endsLine (s.heap p).data = false ∨
      (linksUpload s (s.heap p) comm req.setStale = false ∧
        concatenates s (s.heap p) comm req.setStale req.copy = false))
    (ran : completeNreadAscii s p comm req = .ok (reply, s')) :
    reply ≠ "STORED" ∧ reply ≠ "DELETED" := by
  unfold completeNreadAscii at ran
  split at ran
  · rename_i ends
    obtain ⟨not, plain⟩ : linksUpload s (s.heap p) comm req.setStale = false ∧
        concatenates s (s.heap p) comm req.setStale req.copy = false := by
      simpa [ends] using spares
    have unstored := (doStoreItem_shrinks not plain).1
    obtain ⟨s₁, _, ran⟩ := Exec.bind_eq_ok.mp ran
    obtain ⟨s₂, _, ran⟩ := Exec.bind_eq_ok.mp ran
    cases ran
    exact storeReply_stored unstored
  · cases ran
    decide

theorem processUpdateCommand_spares
    (spares : keyMaxLength < req.key.length ∨ intMax < req.data.length ∨
      UpdateSpares s comm req)
    (ran : processUpdateCommand s comm req = .ok (reply, s')) :
    (reply ≠ "STORED" ∧ reply ≠ "DELETED") ∧ ¬(TextCommand.update comm req).Drops s := by
  unfold processUpdateCommand at ran
  split at ran
  · rename_i bad
    cases ran
    exact ⟨by decide, fun drops => drops.1 bad⟩
  rename_i fine
  have spares : UpdateSpares s comm req := by
    rcases spares with long | big | spares
    · exact absurd (.inl long) fine
    · exact absurd (.inr big) fine
    · exact spares
  unfold UpdateSpares at spares
  rcases uploaded : uploadItem s req req.data with ⟨found, s₁⟩
  rw [uploaded] at ran spares
  cases found with
  | none =>
    cases ran
    refine ⟨by split <;> decide, fun drops => ?_⟩
    exact spares.elim (absurd drops.2.2.1) drops.2.2.2
  | some p =>
    obtain ⟨_, _, _, data, _⟩ := uploadItem_some uploaded
    rw [← data] at spares
    refine ⟨completeNreadAscii_spares spares ran, fun drops => ?_⟩
    cases uploaded ▸ drops.2.1

theorem processDeleteCommand_spares {key : Key}
    (spares : keyMaxLength < key.length ∨ liveItem s key = none) :
    (processDeleteCommand s key).1 ≠ "STORED" ∧ (processDeleteCommand s key).1 ≠ "DELETED" := by
  simp only [processDeleteCommand]
  split
  · simp
  rename_i short
  have missed : (doItemGet s key false).1 = none := by
    rw [doItemGet_fst]
    exact spares.resolve_left short
  rcases ran : doItemGet s key false with ⟨found, s₁⟩
  rw [ran] at missed
  cases missed
  simp

variable {c : TextCommand}

/-- A command that spares the table retires nothing. -/
theorem retired_of_spares
    (spares : Spares s c) (ran : c.exec s = .ok (reply, s')) : retired s c reply = [] := by
  have untouched : s.assoc c.key = none ∨
      ((reply ≠ "STORED" ∧ reply ≠ "DELETED") ∧ ¬c.Drops s) := by
    cases c with
    | update comm req =>
      rcases spares with long | absent | spares
      · exact .inr (processUpdateCommand_spares (.inl long) ran)
      · exact .inl absent
      · exact .inr (processUpdateCommand_spares (.inr spares) ran)
    | delete key =>
      have reply_eq : (processDeleteCommand s key).1 = reply :=
        congrArg Prod.fst (Except.ok.inj ran)
      rw [← reply_eq]
      rcases spares with long | absent | spares
      · exact .inr ⟨processDeleteCommand_spares (.inl long), id⟩
      · exact .inl absent
      · exact .inr ⟨processDeleteCommand_spares (.inr spares), id⟩
  simp only [retired]
  rcases untouched with absent | ⟨⟨notStored, notDeleted⟩, keeps⟩
  · rw [absent]
    split <;> rfl
  · rw [if_neg (by simp [notStored, notDeleted, keeps])]

variable {h : History}

theorem superseded_of_spares {h' : History} (spares : Spares h.state c)
    (ran : historyStep h c = .ok h') : h'.superseded = h.superseded := by
  obtain ⟨⟨reply, s'⟩, exec, ran⟩ := Exec.bind_eq_ok.mp ran
  cases ran
  simp [retired_of_spares spares exec]

/-! ## Runs with replacement -/

/-- A lookup that finds the item, and its removal from the table. -/
theorem assoc_unlink_live {key : Key} {p : ItemPtr} (table : WellLinked s)
    (live : liveItem s key = some p) :
    (doItemRemove (doItemUnlink (refcountIncr s p) p) p).assoc key = none := by
  have found := (doItemGet_some ((doItemGet_fst s key false).trans live)).1
  have linked : ((refcountIncr s p).heap p).linked = true := by
    rw [refcountIncr, State.modify_heap_self]
    exact table.linked key p found
  have here : ((refcountIncr s p).heap p).key = key := by
    rw [refcountIncr, State.modify_heap_self]
    exact table.key key p found
  simp [doItemUnlink, linked, here, doItemRemove]

theorem processDeleteCommand_live {key : Key} {p : ItemPtr} (table : WellLinked s)
    (short : ¬keyMaxLength < key.length) (live : liveItem s key = some p) :
    (processDeleteCommand s key).1 = "DELETED" ∧
      (processDeleteCommand s key).2.assoc key = none := by
  simp only [processDeleteCommand]
  rw [if_neg short, doItemGet_of_live live]
  exact ⟨rfl, assoc_unlink_live table live⟩

theorem processUpdateCommand_drops (table : WellLinked s)
    (drops : (TextCommand.update comm req).Drops s)
    (ran : processUpdateCommand s comm req = .ok (reply, s')) :
    Shrinks Item.core s s' ∧ s'.assoc req.key = none := by
  obtain ⟨fine, refused, rfl, present⟩ := drops
  obtain ⟨p, live⟩ := Option.ne_none_iff_exists'.mp present
  rw [processUpdateCommand, if_neg fine] at ran
  rcases uploaded : uploadItem s req req.data with ⟨found, s₁⟩
  rw [uploaded] at ran refused
  cases refused
  obtain rfl := uploadItem_none uploaded
  cases ran
  refine ⟨.of_sheds (.dropOnFailedAlloc s₁ req.key .set), ?_⟩
  rw [dropOnFailedAlloc, if_pos rfl, doItemGet_of_live live]
  exact assoc_unlink_live table live

variable {xs : List Digest}

/-- In step, a storage command that is not refused replaces what was there. -/
theorem Aligned.update_replaces (aligned : Aligned s xs) (stays : UpdateStaysAligned s comm req)
    (short : ¬keyMaxLength < req.key.length) (fits : ¬intMax < req.data.length)
    (given : (uploadItem s req req.data).1 ≠ none) (replaces : ¬UpdateSpares s comm req) :
    ∃ s' p x, processUpdateCommand s comm req = .ok ("STORED", s') ∧
      Aligned s' (xs ++ [x]) ∧ s'.assoc req.key = some p ∧ (s'.heap p).mtIndex = xs.length := by
  unfold UpdateStaysAligned at stays
  unfold UpdateSpares at replaces
  simp only [processUpdateCommand]
  rw [if_neg (by simp [short, fits])]
  have grown := Shrinks.uploadItem s req req.data
  rcases ran : uploadItem s req req.data with ⟨found, s₁⟩
  rw [ran] at stays given replaces grown
  cases found with
  | none => exact absurd rfl given
  | some p =>
    obtain ⟨_, _, key, data, _, _⟩ := uploadItem_some ran
    dsimp only at stays replaces ⊢
    have ends : endsLine req.data = true := by
      simpa using fun bad => replaces (.inl bad)
    obtain ⟨links, room, allocs⟩ := stays.resolve_left (by simp [ends])
    have lt := uploadItem_lt ran
    obtain ⟨s₂, x, complete, aligned₂, here, index⟩ := (aligned.shrinks_core grown).complete
      lt (data ▸ ends) links (aligned.tree.elems ▸ room) allocs
    exact ⟨s₂, p, x, complete, aligned₂, key ▸ here, index⟩

/-- A superseded item whose leaf is still in the tree, and whose place the
current item does not take, is accepted. -/
theorem Aligned.not_fresh {ys : List Digest} (aligned : Aligned h.state ys) (old : Superseded)
    (member : old ∈ h.superseded) (leaf : ys[old.mtIndex]? = some (padTag old.mac.toList 16))
    (moved : ∀ p, h.state.assoc old.key = some p → (h.state.heap p).mtIndex ≠ old.mtIndex) :
    ¬Fresh h := by
  intro fresh
  have accepted := aligned.tree.verify (by decide) (by simp) leaf
  obtain ⟨p, current, _, sameIndex⟩ := fresh old member accepted
  exact moved p current sameIndex

/-- In step, a command after which the history is fresh replaced nothing. -/
theorem Aligned.spares_of_fresh {h' : History}
    (aligned : Aligned h.state xs) (stays : StaysAligned h.state c.operation)
    (ran : historyStep h c = .ok h') (fresh : Fresh h') : Spares h.state c := by
  by_contra replaces
  simp only [Spares, not_or] at replaces
  obtain ⟨short, present, replaces⟩ := replaces
  obtain ⟨q, found⟩ := Option.ne_none_iff_exists'.mp present
  have leaf := aligned.leaf c.key q found
  obtain ⟨⟨reply, s'⟩, exec, ran⟩ := Exec.bind_eq_ok.mp ran
  cases ran
  cases c with
  | update comm req =>
    dsimp only [TextCommand.key] at short found fresh
    obtain ⟨fits, replaces⟩ := not_or.mp replaces
    by_cases refused : (uploadItem h.state req req.data).1 = none
    · -- The old item is dropped, and its leaf stays.
      have drops : (TextCommand.update comm req).Drops h.state := by
        refine ⟨not_or.mpr ⟨short, fits⟩, refused, ?_⟩
        have spares : UpdateSpares h.state comm req =
            (comm ≠ .set ∨ liveItem h.state req.key = none) := by
          rw [UpdateSpares, ← Prod.mk.eta (p := uploadItem _ _ _), refused]
        rw [spares] at replaces
        simpa only [not_or, not_not] using replaces
      obtain ⟨shrinks, gone⟩ := processUpdateCommand_drops aligned.table drops exec
      refine Aligned.not_fresh (aligned.shrinks_core shrinks)
        ⟨req.key, (h.state.heap q).mac, (h.state.heap q).mtIndex⟩ ?_ leaf ?_ fresh
      · simp [retired, TextCommand.key, found, drops]
      · intro p' current
        cases gone.symm.trans current
    obtain ⟨s₁, p, x, complete, aligned₁, here, index⟩ :=
      aligned.update_replaces stays short fits refused replaces
    cases complete.symm.trans exec
    have inRange := (List.getElem?_eq_some_iff.mp leaf).1
    refine Aligned.not_fresh aligned₁ ⟨req.key, (h.state.heap q).mac, (h.state.heap q).mtIndex⟩
      ?_ ((List.getElem?_append_left inRange).trans leaf) ?_ fresh
    · simp [retired, TextCommand.key, found]
    · -- The new item's leaf is the last one.
      intro p' current
      cases here.symm.trans current
      dsimp only
      omega
  | delete key =>
    dsimp only [TextCommand.key] at short found fresh
    obtain ⟨p, live⟩ := Option.ne_none_iff_exists'.mp replaces
    obtain ⟨deleted, gone⟩ := processDeleteCommand_live aligned.table short live
    have aligned₁ := aligned.shrinks_core (.of_sheds (.processDeleteCommand h.state key))
    have pair : processDeleteCommand h.state key = (reply, s') := Except.ok.inj exec
    rw [pair] at deleted gone aligned₁
    refine Aligned.not_fresh aligned₁ ⟨key, (h.state.heap q).mac, (h.state.heap q).mtIndex⟩
      ?_ leaf ?_ fresh
    · have deleted : reply = "DELETED" := deleted
      simp [retired, TextCommand.key, found, deleted]
    · intro p' current
      cases gone.symm.trans current

theorem historyStep_of_step (ran : step h.state c.operation = .ok s') :
    ∃ h', historyStep h c = .ok h' ∧ h'.state = s' := by
  cases c with
  | update comm req =>
    obtain ⟨⟨reply, s₁⟩, exec, same⟩ := Exec.bind_eq_ok.mp ran
    cases same
    refine ⟨⟨s', h.superseded ++ retired h.state (.update comm req) reply⟩, ?_, rfl⟩
    simp only [historyStep, TextCommand.exec, exec, Exec.ok_bind, Exec.pure_eq_ok]
  | delete key =>
    cases ran
    exact ⟨_, rfl, rfl⟩

/-- In step, a history that stays fresh never replaced or deleted an item. -/
theorem Aligned.meets_spares {cmds : List TextCommand} (aligned : Aligned h.state xs)
    (stays : Meets historyStep (fun h c => StaysAligned h.state c.operation) h cmds)
    (fresh : Throughout historyStep Fresh h cmds) :
    Meets historyStep (fun h c => Spares h.state c) h cmds := by
  induction cmds generalizing h xs with
  | nil => trivial
  | cons c cmds ih =>
    obtain ⟨stay, stays⟩ := stays
    obtain ⟨s', ran, xs', aligned'⟩ := aligned.step stay
    obtain ⟨h', next, rfl⟩ := historyStep_of_step ran
    refine ⟨aligned.spares_of_fresh stay next (fresh.2 h' next).head, fun h'' next' => ?_⟩
    cases next.symm.trans next'
    exact ih aligned' (stays h' next) (fresh.2 h' next)

/-- Runs that neither replace nor delete an item are fresh throughout, and a run
that keeps leaves and items in step is fresh throughout only if it is one of
them. -/
theorem fresh_throughout_iff_spares (settings : Settings) (cmds : List TextCommand) :
    (Meets historyStep (fun h c => Spares h.state c) (History.init settings) cmds →
      Throughout historyStep Fresh (History.init settings) cmds) ∧
    (Meets historyStep (fun h c => StaysAligned h.state c.operation) (History.init settings) cmds →
      Throughout historyStep Fresh (History.init settings) cmds →
        Meets historyStep (fun h c => Spares h.state c) (History.init settings) cmds) := by
  refine ⟨fun spares => ?_, (Aligned.init settings).meets_spares⟩
  have nothing : Throughout historyStep (fun h => h.superseded = []) (History.init settings)
      cmds := by
    refine throughout_of_invariant ?_ rfl spares
    intro h c h' empty spare ran
    exact (superseded_of_spares spare ran).trans empty
  refine nothing.mono ?_
  intro h empty old member
  rw [empty] at member
  cases member

theorem fresh_throughout_sample :
    Throughout historyStep Fresh (History.init defaultSettings)
      [.delete [107], .update .set (plainRequest [107] [49, 13, 10])] := by
  refine (fresh_throughout_iff_spares _ _).1 ⟨.inr (.inl rfl), fun h ran =>
    ⟨?_, fun _ _ => trivial⟩⟩
  cases ran
  exact .inr (.inl rfl)

/-- A `set` of the key `k`. -/
private def version (value : UInt8) : TextCommand :=
  .update .set (plainRequest [107] [value, 13, 10])

private theorem version_stays (value : UInt8) (room : s.merkle.elems < 2 ^ 26) :
    StaysAligned s (version value).operation := by
  show UpdateStaysAligned s .set _
  simp only [UpdateStaysAligned]
  split
  · trivial
  · exact .inr ⟨linksUpload_set _ _ _, room, fun _ => nofun⟩

private theorem version_replaces (value : UInt8)
    (settings : s.settings = defaultSettings) (present : s.assoc [107] ≠ none) :
    ¬Spares s (version value) := by
  rintro (long | absent | big | spares)
  · exact absurd long (by simp [version, TextCommand.key, plainRequest, keyMaxLength])
  · exact present absent
  · exact absurd big (by simp [plainRequest, intMax])
  · have fits : itemSizeOk s.settings 1 0 3 = true := by
      rw [settings]
      decide
    simp [UpdateSpares, uploadItem, doItemAlloc, plainRequest, fits, endsLine,
      linksUpload_set] at spares

/-- After `set k 1` and `set k 2` the tree still accepts the first item. -/
theorem overwritten_accepted :
    ∃ h, run historyStep (History.init defaultSettings)
      [.update .set (plainRequest [107] [49, 13, 10]),
        .update .set (plainRequest [107] [50, 13, 10])] = .ok h ∧ ¬Fresh h := by
  have aligned : Aligned (History.init defaultSettings).state [] := Aligned.init _
  obtain ⟨s₁, ran₁, xs₁, aligned₁⟩ := aligned.step (version_stays 49 (by decide))
  obtain ⟨h₁, next₁, rfl⟩ := historyStep_of_step ran₁
  have facts : (do
      let h ← historyStep (History.init defaultSettings) (version 49)
      return (h.state.settings, h.state.assoc [107], h.state.merkle.elems)) =
        (.ok (defaultSettings, some 0, 1) : Exec _) := by decide +kernel
  simp only [next₁, Exec.ok_bind, Exec.pure_eq_ok, Except.ok.injEq, Prod.mk.injEq] at facts
  obtain ⟨settings, present, elems⟩ := facts
  have stays₂ := version_stays 50 (by rw [elems]; decide)
  obtain ⟨s₂, ran₂, _, _⟩ := aligned₁.step stays₂
  obtain ⟨h₂, next₂, rfl⟩ := historyStep_of_step ran₂
  have replaces := version_replaces 50 settings (by simp [present])
  refine ⟨h₂, ?_, fun fresh => replaces (aligned₁.spares_of_fresh stays₂ next₂ fresh)⟩
  rw [← version, ← version, run_cons next₁, run_cons next₂, run]

end Kvsev.Server
