import Kvsev.Connection.Invariant

/-!
# Where the machine stops

When `drive_machine` stops on a connection, the connection waits for an event. It must not
wait for the client while a reply to a finished command is held back, or while the next
command lies in its buffer. That holds exactly if the machine never waits for the bytes of
a value with other replies in its list, and if the crawler gives no connection back that
has a command in its buffer.
-/

namespace Kvsev.Connection

open Transition

variable {σ ρ : Type} {h : Handlers σ ρ} {limits : Limits} {c c' : Conn σ ρ} {k : Nat}

/-- The responses to commands that are finished. The last one belongs to the command whose
value is being read. -/
def completed (c : Conn σ ρ) : List Resp :=
  match c.state with
  | .nread _ _ _ | .swallow _ => c.resps.dropLast
  | _ => c.resps

/-- The connection is open, and no other thread has it. -/
def Driven (c : Conn σ ρ) : Prop :=
  match c.state with
  | .closed | .watch _ => False
  | _ => True

/-- A connection that has stopped waits for the client only if all replies to finished
commands are sent and there is no line in its buffer. -/
def Served (c : Conn σ ρ) : Prop :=
  c.stop = true → Driven c →
    (unsent (completed c) = [] ∨ c.interest = .write) ∧ (10 ∈ c.rbuf → c.interest = .write)

/-- A pass that finds no bytes of a value does so with no reply to another command waiting,
and the crawler gives a connection back only without a line in its buffer. -/
def Prompt (c : Conn σ ρ) (k : Nat) : Prop :=
  match c.state with
  | .nread _ _ left =>
    c.stop = false → c.rbuf.length < left → k = 0 ∨ c.input = [] → unsent c.resps.dropLast = []
  | .swallow left =>
    c.stop = false → 0 < left → c.rbuf = [] → k = 0 ∨ c.input = [] → unsent c.resps.dropLast = []
  | .watch (some _) => c.stop = true → 0 < k → 10 ∉ c.rbuf
  | _ => True

instance (c : Conn σ ρ) (k : Nat) : Decidable (Prompt c k) := by
  unfold Prompt
  split <;> infer_instance

theorem served_of_go (go : c.stop = false) : Served c := not_stopped go

theorem go_apply (go : c.stop = false) (effect : Effect ρ) : (c.apply h effect).stop = false := by
  cases effect <;> exact go

theorem served_moves (inv : Inv c) (go : c.stop = false) (prompt : Prompt c k)
    (moves : Moves h c k c') : Served c' := by
  have here := inv.inState
  rw [InState] at here
  rw [Prompt] at prompt
  cases moves with
  | yield state zero none =>
    intro _ _
    simp only [completed, state, none]
    refine ⟨.inl rfl, fun line => ?_⟩
    rw [if_pos (List.ne_nil_of_mem line)]
  | wait state buffer short =>
    rw [state] at here
    intro _ _
    exact ⟨.inl (by simp only [completed, here.2.resps]; rfl),
      fun line => absurd line here.2.partial_⟩
  | dry state reads same none =>
    obtain ⟨_, _, _, _, rfl⟩ := reads.frame
    exact served_of_go go
  | got state reads less =>
    obtain ⟨_, _, _, _, rfl⟩ := reads.frame
    exact served_of_go go
  | command state split ran =>
    refine served_of_go (go_apply ?_ _)
    exact go
  | starve state short none =>
    rw [state] at prompt
    intro _ _
    exact ⟨.inl (prompt go short none), fun line => absurd line List.not_mem_nil⟩
  | thirst state pos empty none =>
    rw [state] at prompt
    intro _ _
    refine ⟨.inl ?_, fun line => by simp only [blockRead, empty] at line; cases line⟩
    simp only [completed, blockRead, state]
    exact prompt go pos empty none
  | full state zero => exact fun _ _ => ⟨.inr rfl, fun _ => rfl⟩
  | close state => exact fun _ driven => absurd driven not_false
  | ended state =>
    intro _ driven
    obtain state | ⟨dump, state⟩ := state
    · simp only [Driven, state] at driven
    · simp only [Driven, state] at driven
  | _ => exact served_of_go go

/-- A connection that waits for bytes of a value goes on only when there are some. -/
theorem prompt_wake (inv : Inv c) (stopped : c.stop = true) (event : ready c k) :
    Prompt (wake limits c) k := by
  have here := inv.inState
  rw [InState] at here
  have more (interest : c.interest = .read) : ¬ (k = 0 ∨ c.input = []) := by
    rintro (zero | empty)
    · exact absurd event.1 (zero ▸ Nat.lt_irrefl 0)
    · exact event.2 interest empty
  simp only [Prompt, wake]
  split
  · rename_i state
    rw [state] at here
    exact fun _ _ blocked => absurd blocked (more (here.2 stopped).2.2)
  · rename_i state
    rw [state] at here
    exact fun _ _ _ blocked => absurd blocked (more (here.2.2 stopped).2.2)
  · rintro ⟨⟩
  · trivial

theorem served_passes (inv : Inv c) (served : Served c) (prompt : Prompt c k)
    (passes : Passes h limits c k c') : Served c' := by
  cases passes with
  | idle stopped waits => exact served
  | back state stopped event =>
    have here := inv.inState
    rw [InState, state] at here
    rw [Prompt, state] at prompt
    refine fun _ _ => ⟨.inl ?_, fun line => absurd line (prompt stopped event)⟩
    simp only [completed, connWorkerReadd, here]
    rfl
  | wake stopped event =>
    have woken := inv_wake limits inv
    exact served_moves woken rfl (prompt_wake inv stopped event) (advance_moves woken k)
  | go go => exact served_moves inv go prompt (advance_moves inv k)

/-- Where the condition is not met, the machine stops too early. -/
theorem prompt_of_served (inv : Inv c) (served : Served (pass h limits c k)) : Prompt c k := by
  have here := inv.inState
  rw [InState] at here
  rw [Prompt]
  split
  · rename_i req data left state
    intro go short blocked
    obtain ⟨left, rfl⟩ := Nat.exists_eq_succ_of_ne_zero (Nat.ne_of_gt (Nat.zero_lt_of_lt short))
    rw [pass, if_neg (by rw [go]; exact Bool.false_ne_true), advance] at served
    simp only [state] at served
    rw [nread_blocked short blocked] at served
    obtain sent | write := (served rfl trivial).1
    · exact sent
    · cases write
  · rename_i left state
    intro go pos empty blocked
    rw [state] at here
    obtain ⟨left, rfl⟩ := Nat.exists_eq_succ_of_ne_zero (Nat.ne_of_gt pos)
    rw [pass, if_neg (by rw [go]; exact Bool.false_ne_true), advance] at served
    simp only [state] at served
    rw [swallow_blocked empty here.1 pos blocked] at served
    obtain sent | write := (served rfl (by simp only [Driven, blockRead, state])).1
    · simpa only [completed, blockRead, state] using sent
    · cases write
  · rename_i dump state
    intro stopped event line
    rw [pass, if_pos stopped, resume] at served
    simp only [state] at served
    rw [if_neg (Nat.ne_of_gt event)] at served
    have write := (served rfl trivial).2 line
    cases write
  · trivial

/-- For every connection and whatever bytes arrive or can be sent in each pass: the machine
never waits for the client with a reply held back or with a line in the buffer, exactly
if each pass is prompt. -/
theorem served_throughout_iff (h : Handlers σ ρ) (limits : Limits) (s : σ) (input : List UInt8)
    (ks : List Nat) :
    Throughout (step h limits) Served (Conn.new s input) ks ↔
      Meets (step h limits) Prompt (Conn.new s input) ks := by
  refine throughout_iff_meets (I := fun c => Inv c ∧ Served c) ?_ ?_ ?_ ?_ ?_
  · exact fun c k _ => ⟨_, rfl⟩
  · exact fun c both => both.2
  · rintro c k c' ⟨inv, served⟩ prompt ⟨⟩
    exact ⟨inv_passes inv (pass_passes ..), served_passes inv served prompt (pass_passes ..)⟩
  · rintro c k c' ⟨inv, -⟩ ⟨⟩ served
    exact prompt_of_served inv served
  · exact ⟨Inv.new s input, fun _ _ => ⟨.inl rfl, nofun⟩⟩

/-- A server with no items, in which every value can be stored. -/
def emptyServer : Handlers Unit Unit := plainServer (.upload () 1) "NOT_FOUND"

/-- A command, and another one whose value does not come. -/
def deleteThenSet : List UInt8 := text "delete a" ++ crlf ++ text "set b 0 0 1" ++ crlf

theorem reply_held_back :
    ∃ c, run (step emptyServer ⟨20, by decide⟩) (Conn.new () deleteThenSet)
        [100, 1, 100, 1, 1, 1, 1] = .ok c ∧
      c.stop = true ∧ c.interest = .read ∧ unsent (completed c) = text "NOT_FOUND" ++ crlf ∧
      ¬ Served c := by
  refine ⟨_, rfl, by decide +kernel, by decide +kernel, by decide +kernel, fun served => ?_⟩
  obtain sent | write := (served (by decide +kernel) trivial).1
  · exact absurd sent (by decide +kernel)
  · exact absurd write (by decide +kernel)

end Kvsev.Connection
