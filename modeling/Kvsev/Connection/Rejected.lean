import Kvsev.Connection.Invariant
import Kvsev.Connection.Storage

/-!
# Rejected uploads

A client that sends a storage command sends the value with it, before it knows whether the
command is accepted. If it is not, the value has to be thrown away, or else it is read as
the next commands. The length is in the line, but not every error comes after the length
was read.
-/

namespace Kvsev.Connection

open Server Transition

/-- The length of the value that follows a line, where it is valid. -/
def dataLength (t : Tokens) : Option Nat :=
  match dispatch t with
  | .update _ => validLength (t.word 4)
  | .mset => validLength (t.word 2)
  | _ => none

/-- A line of one of the older commands on which everything is a number that should be. -/
def UpdateSlurps (comm : Nread) (t : Tokens) : Prop :=
  (t.word 1).length ≤ keyMaxLength ∧ (safeStrtoul (t.word 2)).isSome ∧
    (safeStrtol (t.word 3)).isSome ∧ (comm = .cas → (safeUnsigned (t.word 5)).isSome)

/-- A line of `ms` without too many flags. -/
def MsetSlurps (t : Tokens) : Prop :=
  (t.word 1).length ≤ keyMaxLength ∧ t.ntokens ≤ mflagMaxOptLength

/-- The line gets so far that its length is used. -/
def Slurps (t : Tokens) : Prop :=
  match dispatch t with
  | .update comm => UpdateSlurps comm t
  | _ => MsetSlurps t

variable {ρ : Type}

/-- A storage command that is not accepted. -/
def Begun.rejected : Begun ρ → Bool
  | refused _ | swallow _ _ => true
  | upload _ _ => false

/-- The value is thrown away exactly under the condition, and otherwise left alone. -/
def Begun.Spares (begun : Begun ρ) (n : Nat) (slurps : Prop) : Prop :=
  (slurps ∧ ∃ r, begun = .swallow r n) ∨ (¬slurps ∧ ∃ r, begun = .refused r)

/-! ## What the commands do with the value -/

variable {sup : Supply} {s : State} {comm : Nread} {t : Tokens} {n : Nat}

theorem safeStrtol_of_validLength {word : List UInt8} (valid : validLength word = some n) :
    ∃ v, safeStrtol word = some v := by
  unfold validLength at valid
  split at valid
  · cases valid
  · next v parsed => exact ⟨v, parsed⟩

theorem spares_processUpdateCommand (valid : validLength (t.word 4) = some n)
    (rejected : (processUpdateCommand sup s comm t).1.rejected = true) :
    (processUpdateCommand sup s comm t).1.Spares n (UpdateSlurps comm t) := by
  obtain ⟨v, parsed⟩ := safeStrtol_of_validLength valid
  unfold processUpdateCommand at rejected ⊢
  dsimp only at rejected ⊢
  by_cases long : keyMaxLength < (t.word 1).length
  · rw [if_pos long]
    exact .inr ⟨fun slurps => Nat.not_le.mpr long slurps.1, _, rfl⟩
  rw [if_neg long] at rejected ⊢
  rw [valid, parsed] at rejected ⊢
  split
  · next flags exptime _ cas isFlags isExptime _ isCas =>
      rw [isFlags, isExptime, isCas] at rejected
      dsimp only at rejected ⊢
      have slurps : UpdateSlurps comm t := by
        refine ⟨Nat.not_lt.mp long, by rw [isFlags]; rfl, by rw [isExptime]; rfl, ?_⟩
        rintro rfl
        rw [if_pos rfl] at isCas
        rw [isCas]
        rfl
      rcases made : doItemAlloc s (t.word 1) flags
          (realtime sup.started s.currentTime (exptimeToPositiveTime exptime)) (n + 2)
          (sup.alloc s t) with ⟨found, s'⟩
      rw [made] at rejected
      cases found with
      | none => exact .inl ⟨slurps, _, rfl⟩
      | some p => cases rejected
  · next missing =>
      refine .inr ⟨?_, _, rfl⟩
      rintro ⟨-, isFlags, isExptime, isCas⟩
      obtain ⟨flags, isFlags⟩ := Option.isSome_iff_exists.mp isFlags
      obtain ⟨exptime, isExptime⟩ := Option.isSome_iff_exists.mp isExptime
      have token : ∃ cas, (if comm = .cas then safeUnsigned (t.word 5) else some 0) =
          some cas := by
        split
        · next isCasCommand => exact Option.isSome_iff_exists.mp (isCas isCasCommand)
        · exact ⟨0, rfl⟩
      obtain ⟨cas, token⟩ := token
      exact missing flags exptime v cas isFlags isExptime rfl token

theorem spares_processMsetCommand (valid : validLength (t.word 2) = some n)
    (rejected : (processMsetCommand sup s t).1.rejected = true) :
    (processMsetCommand sup s t).1.Spares n (MsetSlurps t) := by
  -- There is a third word, so there are at least four tokens.
  have enough : 3 < t.ntokens := by
    obtain ⟨v, parsed⟩ := safeStrtol_of_validLength valid
    by_contra few
    have missing : t.word 2 = [] := by
      rw [Tokens.word, List.getElem?_eq_none, Option.getD_none]
      unfold Tokens.ntokens at few
      omega
    rw [missing] at parsed
    cases parsed
  unfold processMsetCommand at rejected ⊢
  dsimp only at rejected ⊢
  rw [if_neg (by omega)] at rejected ⊢
  by_cases long : keyMaxLength < (t.word 1).length
  · rw [if_pos long]
    exact .inr ⟨fun slurps => Nat.not_le.mpr long slurps.1, _, rfl⟩
  rw [if_neg long, if_neg (by omega)] at rejected ⊢
  by_cases many : mflagMaxOptLength < t.ntokens
  · rw [if_pos many]
    exact .inr ⟨fun slurps => Nat.not_le.mpr many slurps.2, _, rfl⟩
  rw [if_neg many, valid] at rejected ⊢
  have slurps : MsetSlurps t := ⟨Nat.not_lt.mp long, Nat.not_lt.mp many⟩
  dsimp only at rejected ⊢
  rcases made : msetItem sup s t n with ⟨found, s'⟩
  rw [made] at rejected
  cases found with
  | error errstr => exact .inl ⟨slurps, _, rfl⟩
  | ok req => cases rejected

/-! ## What the machine does with the value -/

section

variable {σ : Type} {h : Handlers σ ρ} {limits : Limits} {c c' : Conn σ ρ} {k m total : Nat}

/-- The bytes that the client sends and the server has not looked at. -/
def unread (c : Conn σ ρ) : Nat := c.rbuf.length + c.input.length

theorem unread_apply (c : Conn σ ρ) (effect : Effect ρ) :
    unread (c.apply h effect) = unread c := by
  cases effect <;> rfl

theorem unread_readInto (c : Conn σ ρ) (k : Nat) : unread (readInto c k) = unread c := by
  simp only [unread, readInto, List.length_append, List.length_take, List.length_drop]
  omega

theorem unread_readMore (allocs : Nat) (c : Conn σ ρ) (k : Nat) :
    unread (readMore allocs c k) = unread c := by
  induction allocs generalizing c k with
  | zero => rfl
  | succ allocs ih =>
    unfold readMore
    dsimp only
    split
    · rw [ih, unread_readInto]
      rfl
    · rw [unread_readInto]
      rfl

theorem unread_read (c : Conn σ ρ) (k : Nat) : unread (read c k) = unread c := by
  have alloc : unread (rbufAlloc c) = unread c := by
    unfold rbufAlloc
    split <;> rfl
  rw [read]
  dsimp only
  generalize larger :
    (if (rbufAlloc c).rsize ≤ (rbufAlloc c).rbuf.length ∧ (rbufAlloc c).rbufMalloced = true
      then { rbufAlloc c with rsize := (rbufAlloc c).rsize * 2 } else rbufAlloc c) = c₁
  have same : unread c₁ = unread c := by
    rw [← larger]
    split
    · exact alloc
    · exact alloc
  split
  · exact same
  · split
    · exact same
    · split
      · exact (unread_readMore _ _ _).trans ((unread_readInto c₁ _).trans same)
      · exact (unread_readInto c₁ _).trans same

theorem unread_moves (moves : Moves h c k c') : unread c' ≤ unread c := by
  have part {rbuf input taken : List UInt8} {left : Nat} (takes : Takes c rbuf input taken left) :
      rbuf.length + input.length ≤ unread c := by
    have stream := congrArg List.length takes.stream
    simp only [List.length_append] at stream
    simp only [unread]
    omega
  cases moves with
  | dry state reads | got state reads =>
    have stream := congrArg List.length reads.stream
    rw [List.length_append, List.length_append] at stream
    exact Nat.le_of_eq stream
  | command state split ran =>
    rw [unread_apply]
    simp only [unread, (splitLine_some split).1, List.length_append, List.length_cons]
    omega
  | data state takes => exact part takes
  | skip state takes => exact part takes
  | starve => exact Nat.add_le_add_right (Nat.zero_le _) _
  | close =>
    simp only [closing, releaseItems, unread, List.length_nil]
    omega
  | _ => exact Nat.le_refl _

theorem unread_swallow (c : Conn σ ρ) (left k : Nat) : unread (swallow c left k) ≤ unread c := by
  unfold swallow
  split
  · simp only [unread, List.length_drop]
    omega
  dsimp only
  split
  · exact Nat.le_refl _
  · split
    · exact Nat.le_refl _
    · simp only [unread, List.length_drop]
      omega

/-- What was looked at stays so. -/
theorem unread_advance (c : Conn σ ρ) (k : Nat) : unread (advance h c k) ≤ unread c := by
  rw [advance]
  split
  · rename_i state
    exact unread_moves (h := h) (k := k) (moves_newCmd state)
  · rename_i state
    exact unread_moves (h := h) (k := k) (moves_waiting state)
  · exact Nat.le_of_eq (unread_read c k)
  · rename_i state
    exact unread_moves (k := k) (moves_parseCmd state)
  · exact Nat.le_refl _
  · rename_i state
    exact unread_moves (h := h) (moves_nread state (Nat.succ_pos _))
  · exact Nat.le_refl _
  · exact unread_swallow c _ k
  · rename_i state
    exact unread_moves (moves_mwrite state)
  · rename_i state
    exact unread_moves (k := k) (.close state)
  · exact Nat.le_refl _
  · exact Nat.le_refl _

theorem unread_pass (c : Conn σ ρ) (k : Nat) : unread (pass h limits c k) ≤ unread c := by
  unfold pass
  split
  · unfold resume
    split
    · split
      · exact Nat.le_refl _
      · exact Nat.le_refl _
    · exact Nat.le_refl _
    · exact Nat.le_refl _
    · split
      · exact unread_advance (wake limits c) k
      · exact Nat.le_refl _
  · exact unread_advance c k

/-- The connection throws a value of `m` bytes away, is past it, or is closed. At the
beginning of the value there were `total` bytes to come. -/
inductive Discarding (m total : Nat) (c : Conn σ ρ) : Prop
  | swallowing (left : Nat) (state : c.state = .swallow left) (count : unread c + m = total + left)
  | past (count : unread c + m ≤ total)
  | dead (state : c.state = .closing ∨ c.state = .closed)

theorem discarding_swallow {left : Nat} (state : c.state = .swallow left)
    (count : unread c + m = total + left) (k : Nat) : Discarding m total (advance h c k) := by
  cases left with
  | zero =>
    simp only [advance, state]
    exact .past (Nat.le_of_eq count)
  | succ left =>
    simp only [advance, state]
    unfold swallow
    split
    · refine .swallowing _ rfl ?_
      simp only [unread, List.length_drop] at count ⊢
      omega
    dsimp only
    split
    · exact .dead (.inl rfl)
    · split
      · exact .swallowing (left + 1) state count
      · refine .swallowing _ rfl ?_
        simp only [unread, List.length_drop, readable] at count ⊢
        omega

theorem Discarding.advance (discarding : Discarding m total c) (k : Nat) :
    Discarding m total (advance h c k) := by
  cases discarding with
  | swallowing left state count => exact discarding_swallow state count k
  | past count => exact .past (Nat.le_trans (Nat.add_le_add_right (unread_advance c k) m) count)
  | dead state =>
    obtain state | state := state
    all_goals
      simp only [Connection.advance, state]
      exact .dead (.inr rfl)

theorem Discarding.pass (discarding : Discarding m total c) (k : Nat) :
    Discarding m total (pass h limits c k) := by
  have awake : Discarding m total (wake limits c) := by
    cases discarding with
    | swallowing left state count => exact .swallowing left state count
    | past count => exact .past count
    | dead state => exact .dead state
  cases discarding with
  | past count => exact .past (Nat.le_trans (Nat.add_le_add_right (unread_pass c k) m) count)
  | swallowing left state count =>
    unfold Connection.pass resume
    simp only [state]
    split
    · split
      · exact awake.advance k
      · exact .swallowing left state count
    · exact discarding_swallow state count k
  | dead state =>
    unfold Connection.pass
    split
    · obtain state | state := state
      · unfold resume
        simp only [state]
        split
        · exact awake.advance k
        · exact .dead (.inl state)
      · unfold resume
        simp only [state]
        exact .dead (.inr state)
    · exact (Discarding.dead state).advance k

theorem Discarding.run {ks : List Nat} (discarding : Discarding m total c)
    (ran : run (step h limits) c ks = .ok c') : Discarding m total c' := by
  induction ks generalizing c with
  | nil =>
    cases ran
    exact discarding
  | cons k ks ih => exact ih (discarding.pass k) ran

/-- Whenever the machine is ready for another command, it is past the next `m` bytes. -/
def Discards (h : Handlers σ ρ) (limits : Limits) (c : Conn σ ρ) (m : Nat) : Prop :=
  ∀ (ks : List Nat) (c' : Conn σ ρ), run (step h limits) c ks = .ok c' →
    c'.state = .newCmd ∨ c'.state = .parseCmd → unread c' + m ≤ unread c

theorem discards_of_swallow (state : c.state = .swallow m) : Discards h limits c m := by
  intro ks c' ran ready
  have discarding : Discarding m (unread c) c' :=
    (Discarding.swallowing m state rfl : Discarding m (unread c) c).run ran
  cases discarding with
  | swallowing left state _ =>
    rw [state] at ready
    obtain ready | ready := ready
    · cases ready
    · cases ready
  | past count => exact count
  | dead state =>
    obtain state | state := state
    all_goals
      rw [state] at ready
      obtain ready | ready := ready
      · cases ready
      · cases ready

theorem not_discards_of_newCmd (state : c.state = .newCmd) (pos : 0 < m) :
    ¬Discards h limits c m := by
  intro discards
  have past : unread c + m ≤ unread c := discards [] c rfl (.inl state)
  omega

/-- A connection after a storage command that was rejected. -/
theorem discards_apply_iff {begun : Begun ρ} {slurps : Prop} (spares : begun.Spares n slurps) :
    Discards h limits (c.apply h begun.effect) (n + 2) ↔ slurps := by
  obtain ⟨holds, r, rfl⟩ | ⟨fails, r, rfl⟩ := spares
  · exact ⟨fun _ => holds, fun _ => discards_of_swallow rfl⟩
  · refine ⟨fun discards => ?_, fun slurps => absurd slurps fails⟩
    exact absurd discards (not_discards_of_newCmd rfl (Nat.succ_pos _))

end

/-- The server answers the line with an error and does not read a value. -/
def Rejects (sup : Supply) (s : State) (t : Tokens) : Prop :=
  match dispatch t with
  | .update comm => (processUpdateCommand sup s comm t).1.rejected = true
  | .mset => (processMsetCommand sup s t).1.rejected = true
  | _ => False

theorem rejects_iff (sup : Supply) (s : State) (t : Tokens) :
    (match dispatch t with
      | .update comm => (processUpdateCommand sup s comm t).1.rejected
      | .mset => (processMsetCommand sup s t).1.rejected
      | _ => false) = true ↔ Rejects sup s t := by
  rw [Rejects]
  split <;> simp_all

instance (sup : Supply) (s : State) (t : Tokens) : Decidable (Rejects sup s t) :=
  decidable_of_iff _ (rejects_iff sup s t)

variable {h : Handlers State (ItemPtr × Nread)} {limits : Limits}
  {c : Conn State (ItemPtr × Nread)}

/-- For every connection that gets a storage command with a valid length and rejects it, and
whatever comes afterwards: the machine is past the value before it looks for another
command exactly if the line gets so far that its length is used. -/
theorem rejected_upload_discarded_iff {line rest : List UInt8} (k : Nat) (go : c.stop = false)
    (state : c.state = .parseCmd) (isLine : splitLine c.rbuf = some (line, rest))
    (valid : dataLength (tokenizeCommand (chomp line)) = some n)
    (rejected : Rejects sup c.store (tokenizeCommand (chomp line))) :
    Discards (h.storing sup) limits (pass (h.storing sup) limits c k) (n + 2) ↔
      Slurps (tokenizeCommand (chomp line)) := by
  rw [pass, if_neg (by rw [go]; exact Bool.false_ne_true), advance]
  simp only [state, parseCmd, isLine, processCommand]
  generalize tokenizeCommand (chomp line) = t at valid rejected ⊢
  unfold dataLength at valid
  unfold Rejects at rejected
  unfold Slurps
  cases isUpdate : dispatch t with
  | update comm =>
    simp only [isUpdate] at valid rejected ⊢
    exact discards_apply_iff (spares_processUpdateCommand valid rejected)
  | mset =>
    simp only [isUpdate] at valid rejected ⊢
    exact discards_apply_iff (spares_processMsetCommand valid rejected)
  | _ => simp only [isUpdate] at rejected

/-- A server without memory for items, which has an answer for every other command. -/
def fullServer : Handlers State (ItemPtr × Nread) := plainServer (.refused Resp.empty) "OK"

/-- Memory for nothing. -/
def noSupply : Supply where
  started := 0
  alloc _ _ := none
  decode key := key

/-- A connection that has read `bytes`. -/
def hasRead (bytes : List UInt8) : Conn State (ItemPtr × Nread) :=
  { (Conn.new (State.init defaultSettings) [] : Conn State (ItemPtr × Nread)) with
    rbuf := bytes, rsize := readBufferSize, state := .parseCmd, stop := false }

theorem rejected_upload_discarded_sample :
    Discards (fullServer.storing noSupply) ⟨20, by decide⟩
        (pass (fullServer.storing noSupply) ⟨20, by decide⟩
          (hasRead (text "set k 0 0 9" ++ crlf ++ text "flush_all" ++ crlf)) 0) (9 + 2) ↔
      Slurps (tokenizeCommand (chomp (text "set k 0 0 9" ++ [13]))) := by
  have isLine : splitLine (hasRead (text "set k 0 0 9" ++ crlf ++ text "flush_all" ++ crlf)).rbuf =
      some (text "set k 0 0 9" ++ [13], text "flush_all" ++ crlf) := by decide +kernel
  have valid : dataLength (tokenizeCommand (chomp (text "set k 0 0 9" ++ [13]))) = some 9 := by
    decide +kernel
  exact rejected_upload_discarded_iff 0 rfl rfl isLine valid (by decide +kernel)

/-- A value with a command in it, after a line with flags that are not a number. -/
def commandInValue : List UInt8 := text "set k x 0 9" ++ crlf ++ text "flush_all" ++ crlf

theorem value_executed :
    dataLength (tokenizeCommand (text "set k x 0 9")) = some 9 ∧
    ∃ c c', run (step (fullServer.storing noSupply) ⟨20, by decide⟩)
        (Conn.new (State.init defaultSettings) commandInValue) [100, 1, 100, 1, 1] = .ok c ∧
      c.state = .parseCmd ∧ c.rbuf = text "flush_all" ++ crlf ∧
      run (step (fullServer.storing noSupply) ⟨20, by decide⟩) c [1, 1, 1, 100, 100] = .ok c' ∧
      c'.sent = text "CLIENT_ERROR bad command line format" ++ crlf ++ text "OK" ++ crlf := by
  refine ⟨by decide +kernel, _, _, rfl, ?_, ?_, rfl, ?_⟩
  · decide +kernel
  · decide +kernel
  · decide +kernel

end Kvsev.Connection
