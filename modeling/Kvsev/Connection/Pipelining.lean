import Kvsev.Connection.Rest
import Kvsev.Connection.Served

/-!
# Pipelining and segmentation

A client may wait for each reply before it sends the next command, or send all commands
at once, and the network may cut what it sends anywhere. As long as the passes are
careful, the server does the same in all cases: what becomes of the session does not
change with a pass, and a connection that has come to rest has arrived there.
-/

namespace Kvsev.Connection

open Transition

variable {σ ρ : Type} {h : Handlers σ ρ} {limits : Limits} {c c' d : Conn σ ρ} {k : Nat}

/-! ## Runs of careful passes -/

/-- What a connection at rest expects next. -/
def resting (c : Conn σ ρ) : Phase ρ :=
  match c.state with
  | .nread req data left => .data req data (left - 1)
  | .swallow left => .swallow (unsent (held c.resps)) (left - 1)
  | .closed => .closed
  | .watch _ => .watching
  | _ => .line c.rbuf

/-- The replies to finished commands that a connection at rest has not sent. -/
def late (c : Conn σ ρ) : List UInt8 :=
  match c.state with
  | .nread _ _ _ | .swallow _ => unsent c.resps.dropLast
  | _ => []

/-- A connection that has come to rest has arrived where its session leads to. -/
theorem future_atRest (inv : Inv c) (rest : AtRest c) :
    future h c = ⟨released h c.store c.resps, resting c, c.sent ++ late c⟩ := by
  have here := inv.inState
  rw [InState] at here
  rw [AtRest] at rest
  split at rest
  · rename_i state
    obtain ⟨input, rbuf, resps⟩ := rest
    simp [future, view, queued, state, resting, late, input, rbuf, resps, Session.feeds, unsent]
  · rename_i state
    rw [state] at here
    obtain ⟨-, resps, clean, -⟩ := here
    simp [future, view, queued, state, resting, late, rest, resps, unsent, Session.feeds_line clean]
  · rename_i state
    rw [state] at here
    obtain ⟨⟨resps, clean, -⟩, -⟩ := here
    simp [future, view, queued, state, resting, late, rest, resps, unsent, Session.feeds_line clean]
  · rename_i req data left state
    rw [state] at here
    obtain ⟨⟨front, last⟩, -⟩ := here
    have begun : unsent [Resp.empty] = [] := rfl
    simp [future, view, queued, state, resting, late, rest, last, Session.upload, Session.feeds,
      unsent_append, begun]
  · rename_i left state
    simp [future, view, state, resting, late, rest, Session.skip, Session.feeds]
  · rename_i state
    simp [future, view, state, resting, late, Session.feeds_closed]
  · rename_i state
    rw [state] at here
    have begun : unsent [Resp.empty] = [] := rfl
    simp [future, view, queued, state, resting, late, Session.feeds_watching, here, begun]
  · cases rest

/-- The connection is at rest between two commands, or closed or given away. -/
def Idle (c : Conn σ ρ) : Prop :=
  AtRest c ∧
    match c.state with
    | .nread _ _ _ | .swallow _ => False
    | .closed | .watch _ => True
    | _ => c.rbuf = []

theorem atRest_iff (c : Conn σ ρ) :
    (match c.state with
      | .newCmd => decide (c.input = [] ∧ c.rbuf = [] ∧ c.resps = [])
      | .waiting | .read => decide (c.input = [])
      | .nread _ _ (_ + 1) | .swallow (_ + 1) => decide (c.input = [] ∧ c.rbuf = [])
      | .closed | .watch none => true
      | _ => false) = true ↔ AtRest c := by
  rw [AtRest]
  split <;> simp_all

instance (c : Conn σ ρ) : Decidable (AtRest c) := decidable_of_iff _ (atRest_iff c)

theorem idle_iff (c : Conn σ ρ) :
    (AtRest c ∧ (match c.state with
      | .nread _ _ _ | .swallow _ => false
      | .closed | .watch _ => true
      | _ => decide (c.rbuf = [])) = true) ↔ Idle c := by
  rw [Idle]
  split <;> simp_all

instance (c : Conn σ ρ) : Decidable (Idle c) := decidable_of_iff _ (idle_iff c)

/-- Between two commands no replies wait, and no references are held for them. -/
theorem nothing_waits (inv : Inv c) (rest : AtRest c) (unread : ∀ req data left,
    c.state ≠ .nread req data left) (unskipped : ∀ left, c.state ≠ .swallow left) :
    unsent c.resps = [] ∧ released h c.store c.resps = c.store := by
  have few : c.resps = [] ∨ c.resps = [Resp.empty] := by
    have here := inv.inState
    rw [InState] at here
    rw [AtRest] at rest
    cases state : c.state with
    | newCmd =>
      rw [state] at rest
      exact .inl rest.2.2
    | waiting =>
      rw [state] at here
      exact .inl here.2.resps
    | read =>
      rw [state] at here
      exact .inl here.1.resps
    | nread req data left => exact absurd state (unread req data left)
    | swallow left => exact absurd state (unskipped left)
    | closed =>
      rw [state] at here
      exact .inl here
    | watch dump =>
      rw [state] at here
      exact .inr here
    | parseCmd | mwrite | closing =>
      rw [state] at rest
      cases rest
  obtain none | one := few
  · rw [none]
    exact ⟨rfl, rfl⟩
  · rw [one]
    exact ⟨rfl, rfl⟩

theorem Idle.nothing_waits (idle : Idle d) (inv : Inv c) (rest : AtRest c)
    (phase : resting c = resting d) :
    late c = [] ∧ unsent c.resps = [] ∧ released h c.store c.resps = c.store := by
  obtain ⟨-, between⟩ := idle
  rw [resting, resting] at phase
  have unread (req : ρ) (data : List UInt8) (left : Nat) : c.state ≠ .nread req data left := by
    intro state
    rw [state] at phase
    cases other : d.state <;> simp_all
  have unskipped (left : Nat) : c.state ≠ .swallow left := by
    intro state
    rw [state] at phase
    cases other : d.state <;> simp_all
  refine ⟨?_, Connection.nothing_waits inv rest unread unskipped⟩
  rw [late]
  split
  · rename_i state
    exact absurd state (unread _ _ _)
  · rename_i state
    exact absurd state (unskipped _)
  · rfl

/-- A connection at rest has sent what an idle one has that got there in another way. -/
theorem Idle.same (idle : Idle d) (inv : Inv c) (rest : AtRest c)
    (arrived : future h c = ⟨d.store, resting d, d.sent⟩) :
    c.sent = d.sent ∧ c.store = d.store := by
  rw [future_atRest inv rest, Session.mk.injEq] at arrived
  obtain ⟨store, phase, sent⟩ := arrived
  obtain ⟨all, -, free⟩ := idle.nothing_waits (h := h) inv rest phase
  rw [all, List.append_nil] at sent
  rw [free] at store
  exact ⟨sent, store⟩

/-- A server with one item, which counts the references to it. -/
def oneItem : Handlers Nat Unit :=
  { plainServer (.upload () 1) "NOT_FOUND" with
    lookup := fun n _ _ _ =>
      (some ⟨text "VALUE k 0 1" ++ crlf, .plain (text "1" ++ crlf), 0⟩, n + 1)
    release := fun n _ => n - 1 }

/-- Careful and prompt passes, of which the last ones are not blocked and are enough. -/
structure Ends (h : Handlers σ ρ) (limits : Limits) (start : Conn σ ρ) (ks ls : List Nat)
    (c : Conn σ ρ) : Prop where
  meets : Meets (step h limits) (fun c k => Careful h c k ∧ Prompt c k) start (ks ++ ls)
  ran : run (step h limits) start (ks ++ ls) = .ok c
  free : ∀ l ∈ ls, 0 < l
  enough : patience h start ≤ ls.length

/-- A prompt connection at rest has sent the replies to all commands that are finished. -/
theorem late_of_prompt (inv : Inv c) (served : Served c) (prompt : Prompt c k)
    (rest : AtRest c) : late c = [] := by
  have here := inv.inState
  rw [InState] at here
  rw [AtRest] at rest
  rw [Prompt] at prompt
  rw [late]
  have starved {left : Nat} (stopped : c.stop = true) (driven : Driven c)
      (starved : Starved c left) : unsent (completed c) = [] := by
    obtain sent | write := (served stopped driven).1
    · exact sent
    · rw [starved.2.2] at write
      cases write
  split
  · rename_i req data left state
    simp only [state] at here rest prompt
    cases left with
    | zero => cases rest
    | succ left =>
      cases stop : c.stop with
      | false => exact prompt stop (by rw [rest.2]; exact Nat.succ_pos left) (.inr rest.1)
      | true =>
        have sent := starved stop (by simp only [Driven, state]) (here.2 stop)
        simpa only [completed, state] using sent
  · rename_i left state
    simp only [state] at here rest prompt
    cases left with
    | zero => cases rest
    | succ left =>
      cases stop : c.stop with
      | false => exact prompt stop (Nat.succ_pos left) rest.2 (.inr rest.1)
      | true =>
        have sent := starved stop (by simp only [Driven, state]) (here.2.2 stop)
        simpa only [completed, state] using sent
  · rfl

theorem late_passes (steady : Steady c) (rest : AtRest c) (sent : late c = [])
    (careful : Careful h c k) (passes : Passes h limits c k c') : late c' = [] := by
  obtain ⟨rest', same⟩ := atRest_passes steady rest passes
  obtain ⟨steady', carries⟩ := carries_passes steady careful passes
  have future := carries.future
  rw [future_atRest steady'.inv rest', future_atRest steady.inv rest, Session.mk.injEq, same,
    sent] at future
  exact List.append_cancel_left future.2.2

/-- After such a run the connection is at rest where its session leads to, and nothing is
left to be sent. -/
theorem Ends.future {s : σ} {input : List UInt8} {ks ls : List Nat}
    (ends : Ends h limits (Conn.new s input) ks ls c) :
    (⟨released h c.store c.resps, resting c, c.sent⟩ : Session σ ρ) =
      future h (Conn.new s input) := by
  obtain ⟨m, before, after⟩ := run_split ends.ran
  obtain ⟨meets, meets'⟩ := ends.meets.of_append before
  have enough := ends.enough
  rw [patience] at enough
  -- What careful and prompt passes keep.
  let I (d : Conn σ ρ) : Prop := Steady d ∧ Served d ∧ Connection.future h d =
    Connection.future h (Conn.new s input) ∧ effort h d ≤ effort h (Conn.new s input)
  have keep : ∀ d k d', I d → Careful h d k ∧ Prompt d k → step h limits d k = .ok d' → I d' := by
    rintro d k d' ⟨steady, served, same, less⟩ ⟨careful, prompt⟩ ⟨⟩
    have passes := pass_passes h limits d k
    obtain ⟨steady', carries⟩ := carries_passes steady careful passes
    exact ⟨steady', served_passes steady.inv served prompt passes, carries.future.trans same,
      (effort_passes steady careful passes).trans less⟩
  have start : I (Conn.new s input) :=
    ⟨Steady.new s input, fun _ _ => ⟨.inl rfl, nofun⟩, rfl, Nat.le_refl _⟩
  have middle : I m := holds_of_run keep start meets before
  obtain ⟨steady, -, same, -⟩ : I c := holds_of_run keep middle meets' after
  obtain ⟨rest, sent⟩ : AtRest c ∧ late c = [] := by
    refine settles (I := I) (R := fun d => AtRest d ∧ late d = []) (μ := load h) keep ?_ ?_ middle
      meets' ends.free after ?_
    · rintro d k d' ⟨steady, -⟩ ⟨rest, sent⟩ ⟨careful, -⟩ ⟨⟩
      have passes := pass_passes h limits d k
      exact ⟨(atRest_passes steady rest passes).1, late_passes steady rest sent careful passes⟩
    · rintro d k d' ⟨steady, served, -⟩ ⟨careful, prompt⟩ pos ⟨⟩
      exact (load_passes steady careful pos (pass_passes ..)).imp_left fun rest =>
        ⟨rest, late_of_prompt steady.inv served prompt rest⟩
    · have few := load_le (h := h) m
      have less := middle.2.2.2
      omega
  rw [← same, future_atRest steady.inv rest, sent, List.append_nil]

end Kvsev.Connection
