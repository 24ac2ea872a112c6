import Kvsev.Connection.Session

/-!
# Coming to rest

A connection is at rest when it is closed or given away, or when the client has sent all
and there is nothing left to do. The work that is left falls with every pass that does
something, and if no system call blocks then every pass does, apart from those that get
the machine to wait for a `read` event.
-/

namespace Kvsev.Connection

variable {σ ρ : Type} {h : Handlers σ ρ} {limits : Limits} {c c' : Conn σ ρ} {k : Nat}

/-- There is nothing left to do until the client sends more. -/
def AtRest (c : Conn σ ρ) : Prop :=
  match c.state with
  | .newCmd => c.input = [] ∧ c.rbuf = [] ∧ c.resps = []
  | .waiting | .read => c.input = []
  | .nread _ _ (_ + 1) | .swallow (_ + 1) => c.input = [] ∧ c.rbuf = []
  | .closed | .watch none => True
  | _ => False

/-- How far a state is from the next one that makes the machine wait. -/
def rank (c : Conn σ ρ) : Nat :=
  match c.state with
  | .nread _ _ _ | .swallow _ => 6
  | .newCmd => if c.stop = false ∧ c.nreqs = 0 then 5 else 4
  | .parseCmd => 3
  | .mwrite => 2
  | .closing => 1
  | .waiting | .read | .closed | .watch _ => 0

/-- The work that is left: bytes to read and to look at, responses to finish, and bytes to
send. -/
def effort (h : Handlers σ ρ) (c : Conn σ ρ) : Nat :=
  16 * (2 * c.input.length + c.rbuf.length) + 8 * c.resps.length +
    8 * ((future h c).out.length - c.sent.length) + rank c

/-- A number of passes in which nothing blocks that bring a connection to rest. -/
def patience (h : Handlers σ ρ) (c : Conn σ ρ) : Nat := 2 * effort h c + 2

/-- The pass does nothing but wait. -/
def Lull (c : Conn σ ρ) (k : Nat) : Prop :=
  match c.state with
  | .waiting | .closed | .watch _ => True
  | .read => k = 0 ∨ c.input = []
  | .nread _ _ (_ + 1) | .swallow (_ + 1) => c.rbuf = [] ∧ (k = 0 ∨ c.input = [])
  | .mwrite => k = 0
  | _ => False

theorem sent_prefix_future (c : Conn σ ρ) : c.sent <+: (future h c).out := by
  have first : c.sent <+: (view h c).out := by
    rw [view]
    split
    · exact List.prefix_append _ _
    · exact List.prefix_append _ _
    · exact List.prefix_append _ _
    · exact List.prefix_append _ _
    · exact List.prefix_append _ _
    · exact (List.prefix_append _ _).trans (Session.out_upload _ _ _)
    · exact (List.prefix_append _ _).trans (Session.out_skip _ _)
    · exact List.prefix_refl _
    · exact List.prefix_refl _
    · exact List.prefix_append _ _
  exact first.trans (Session.out_feeds _ _)

/-- The measure, for passes that do not change what becomes of the session. -/
theorem effort_lt {r t : Nat} (same : future h c' = future h c)
    (sent : c.sent.length ≤ c'.sent.length) (before : r ≤ rank c) (after : rank c' ≤ t)
    (less : 16 * (2 * c'.input.length + c'.rbuf.length) + 8 * c'.resps.length +
        8 * c.sent.length + t <
      16 * (2 * c.input.length + c.rbuf.length) + 8 * c.resps.length +
        8 * c'.sent.length + r) :
    effort h c' < effort h c := by
  have bound := (sent_prefix_future (h := h) c').length_le
  rw [same] at bound
  simp only [effort, same]
  omega

/-- The measure, where only the state matters. -/
theorem effort_rank (same : future h c' = future h c) (input : c'.input = c.input)
    (rbuf : c'.rbuf = c.rbuf) (resps : c'.resps = c.resps) (sent : c'.sent = c.sent) :
    (rank c' < rank c → effort h c' < effort h c) ∧
      (rank c' = rank c → effort h c' = effort h c) := by
  rw [effort, effort, same, input, rbuf, resps, sent]
  omega

theorem rank_newCmd (state : c.state = .newCmd) : 3 < rank c ∧ rank c ≤ 5 := by
  simp only [rank, state]
  split <;> omega

theorem rank_le_six (c : Conn σ ρ) : rank c ≤ 6 := by
  rw [rank]
  split
  · exact Nat.le_refl 6
  · exact Nat.le_refl 6
  · split <;> omega
  all_goals omega

theorem apply_bound {effect : Effect ρ} {stack : Bool} {size : Nat}
    (sound : effect.Sound stack size) (pos : 1 ≤ size) :
    (c.apply h effect).resps.length ≤ c.resps.length + size ∧
      (c.apply h effect).sent = c.sent ∧ (c.apply h effect).input = c.input ∧
      (c.apply h effect).rbuf = c.rbuf := by
  cases effect with
  | answer rs flush =>
    refine ⟨?_, rfl, rfl, rfl⟩
    simp only [Conn.apply, List.length_append]
    exact Nat.add_le_add_left sound.2 _
  | kill begun r =>
    refine ⟨?_, rfl, rfl, rfl⟩
    simp only [Conn.apply, List.length_singleton]
    omega
  | upload req vlen | swallow r vlen | quit | close | handOver dump =>
    exact ⟨by simp [Conn.apply]; omega, rfl, rfl, rfl⟩

/-- Every careful pass does some of the work, or waits. -/
theorem effort_moves (steady : Steady c) (go : c.stop = false) (careful : Careful h c k)
    (moves : Moves h c k c') :
    effort h c' < effort h c ∨ effort h c' = effort h c ∧ Lull c k := by
  have same := (carries_moves steady go careful moves).future
  have here := steady.inv.inState
  rw [InState] at here
  -- What a value that is read or skipped takes off the stream.
  have shrinks {rbuf input taken : List UInt8} {left : Nat}
      (takes : Takes c rbuf input taken left) :
      2 * input.length + rbuf.length < 2 * c.input.length + c.rbuf.length := by
    have stream := congrArg List.length takes.stream
    have fewer := takes.fewer
    have pos := takes.pos
    simp only [List.length_append] at stream
    omega
  cases moves with
  | parse state some_ nreqs =>
    exact .inl ((effort_rank same rfl rfl rfl rfl).1 (rank_newCmd state).1)
  | flush state queued nreqs =>
    exact .inl ((effort_rank same rfl rfl rfl rfl).1 (Nat.lt_of_succ_lt (rank_newCmd state).1))
  | rest state empty none nreqs =>
    exact .inl ((effort_rank same rfl rfl rfl rfl).1 (Nat.zero_lt_of_lt (rank_newCmd state).1))
  | yield state zero none =>
    exact .inl ((effort_rank same rfl rfl rfl rfl).1 (by simp [rank, state, go, zero]))
  | wait state buffer short =>
    exact .inr ⟨(effort_rank same rfl rfl rfl rfl).2 (by simp only [rank, state]),
      by simp only [Lull, state]⟩
  | dry state reads rbuf none =>
    have stream := reads.stream
    obtain ⟨_, _, _, _, rfl⟩ := reads.frame
    simp only at rbuf stream
    rw [rbuf] at stream
    have input := List.append_cancel_left stream
    exact .inr ⟨(effort_rank same input rbuf rfl rfl).2 (by simp only [rank, state]),
      by simp only [Lull, state]; exact none⟩
  | got state reads less =>
    have stream := congrArg List.length reads.stream
    obtain ⟨_, _, _, _, rfl⟩ := reads.frame
    simp only [List.length_append] at stream less
    refine .inl (effort_lt same (Nat.le_refl _) (Nat.zero_le _) (Nat.le_refl 3) ?_)
    simp only
    omega
  | refuse state none long =>
    exact .inl ((effort_rank same rfl rfl rfl rfl).1 (by simp only [rank, state]; decide))
  | more state none buffer long =>
    refine .inl ((effort_rank same rfl rfl rfl rfl).1 ?_)
    by_cases empty : c.resps = []
    · simp [rank, state, empty]
    · simp [rank, state, empty]
  | @command line rest effect store state split ran =>
    have sound := processCommand_sound (h := h) c.store c.traffic (!c.resps.isEmpty) (chomp line)
    rw [ran] at sound
    obtain ⟨resps, sent, input, rbuf⟩ := apply_bound (h := h)
      (c := { c with store, rbuf := rest }) sound (Nat.le_add_left 1 _)
    have shorter := length_chomp line
    have whole := congrArg List.length (splitLine_some split).1
    refine .inl (effort_lt same (by rw [sent]) (r := 3) ?_ (rank_le_six _) ?_)
    · simp only [rank, state, Nat.le_refl]
    · rw [List.length_append, List.length_cons] at whole
      rw [sent, input, rbuf]
      simp only at resps ⊢
      omega
  | complete state =>
    obtain ⟨front, last⟩ := steady.inv.begun state
    refine .inl (effort_lt same (Nat.le_refl _) (r := 6) ?_ (rank_newCmd rfl).2 ?_)
    · simp only [rank, state, Nat.le_refl]
    · simp [completeNread, last]
  | data state takes =>
    have less := shrinks takes
    refine .inl (effort_lt same (Nat.le_refl _) (r := 6) ?_ (Nat.le_refl 6) (by simp only; omega))
    simp only [rank, state, Nat.le_refl]
  | @starve req data left state short none =>
    by_cases nothing : c.rbuf = []
    · refine .inr ⟨(effort_rank same rfl nothing.symm rfl rfl).2 ?_, ?_⟩
      · simp only [blockRead, rank, state]
      · obtain ⟨left, rfl⟩ := Nat.exists_eq_add_one.mpr (Nat.zero_lt_of_lt short)
        simp only [Lull, state]
        exact ⟨nothing, none⟩
    · have some_ := List.length_pos_iff.mpr nothing
      refine .inl (effort_lt same (Nat.le_refl _) (r := 6) ?_ (Nat.le_refl 6) ?_)
      · simp only [rank, state, Nat.le_refl]
      · simp only [blockRead, List.length_nil]
        omega
  | skipped state =>
    refine .inl ((effort_rank same rfl rfl rfl rfl).1 ((rank_newCmd rfl).2.trans_lt ?_))
    simp [rank, state]
  | skip state takes =>
    have less := shrinks takes
    refine .inl (effort_lt same (Nat.le_refl _) (r := 6) ?_ (Nat.le_refl 6) (by simp only; omega))
    simp only [rank, state, Nat.le_refl]
  | @thirst left state pos empty none =>
    obtain ⟨left, rfl⟩ := Nat.exists_eq_add_one.mpr pos
    exact .inr ⟨(effort_rank same rfl rfl rfl rfl).2 (by simp only [blockRead, rank, state]),
      by simp only [Lull, state]; exact ⟨empty, none⟩⟩
  | @sent out more state progress sent done =>
    rw [state] at here
    have queued := List.length_pos_iff.mpr here.1
    have length := congrArg List.length sent
    rw [List.length_append] at length
    refine .inl (effort_lt same ?_ (r := 2) (t := 5) ?_ ?_ ?_)
    · simp only [sentAll, releaseItems, Conn.withOutput]
      omega
    · simp only [rank, state, Nat.le_refl]
    · cases closes : c.closeAfterWrite with
      | true => simp [sentAll, releaseItems, Conn.withOutput, closes, rank]
      | false => exact (rank_newCmd (by simp [sentAll, releaseItems, Conn.withOutput, closes])).2
    · simp only [sentAll, releaseItems, Conn.withOutput, List.length_nil]
      omega
  | part state progress sent left falls =>
    have length := congrArg List.length sent
    have total := congrArg List.length progress.total
    have fewer := progress.length_le
    rw [List.length_append] at length total
    simp only [Output.left] at falls
    refine .inl (effort_lt same ?_ (r := 2) (t := 2) ?_ ?_ ?_)
    · simp only [Conn.withOutput]
      omega
    · simp only [rank, state, Nat.le_refl]
    · simp only [Conn.withOutput, rank, state, Nat.le_refl]
    · simp only [Conn.withOutput]
      omega
  | full state zero =>
    exact .inr ⟨(effort_rank same rfl rfl rfl rfl).2 (by simp only [rank, state]),
      by simp only [Lull, state]; exact zero⟩
  | close state =>
    refine .inl (effort_lt same (Nat.le_refl _) (r := 1) (t := 0) ?_ (Nat.le_refl 0) ?_)
    · simp only [rank, state, Nat.le_refl]
    · simp only [closing, releaseItems, List.length_nil]
      omega
  | ended state =>
    refine .inr ⟨(effort_rank same rfl rfl rfl rfl).2 ?_, ?_⟩
    · obtain state | ⟨dump, state⟩ := state <;> simp only [rank, state]
    · obtain state | ⟨dump, state⟩ := state <;> simp only [Lull, state]

theorem effort_wake (stopped : c.stop = true) : effort h (wake limits c) = effort h c := by
  have pos := limits.pos
  have same : rank (wake limits c) = rank c := by
    simp only [rank, wake, stopped]
    split <;> simp
    omega
  rw [effort, effort, same]
  rfl

/-- The work with a little more while the machine is on its way to wait. -/
def load (h : Handlers σ ρ) (c : Conn σ ρ) : Nat :=
  match c.state with
  | .waiting => 2 * effort h c + 1
  | _ => 2 * effort h c

theorem load_le (c : Conn σ ρ) : load h c ≤ 2 * effort h c + 1 := by
  rw [load]
  split <;> omega

theorem le_load (c : Conn σ ρ) : 2 * effort h c ≤ load h c := by
  rw [load]
  split <;> omega

/-- A pass that only waits although the socket has something waits for the client. -/
theorem Lull.atRest (settled : Settled c) (lull : Lull c k) (pos : 0 < k)
    (other : c.state ≠ .waiting) : AtRest c := by
  rw [Settled] at settled
  rw [Lull] at lull
  rw [AtRest]
  split at lull
  · rename_i state
    exact absurd state other
  · rename_i state
    simp only [state]
  · rename_i dump state
    rw [state] at settled
    cases dump with
    | none => simp only [state]
    | some dump => cases settled
  · rename_i state
    simp only [state]
    exact lull.resolve_left (Nat.ne_of_gt pos)
  · rename_i state
    simp only [state]
    exact ⟨lull.2.resolve_left (Nat.ne_of_gt pos), lull.1⟩
  · rename_i state
    simp only [state]
    exact ⟨lull.2.resolve_left (Nat.ne_of_gt pos), lull.1⟩
  · exact absurd lull (Nat.ne_of_gt pos)
  · cases lull

/-- A stopped connection that has no event waits for the client. -/
theorem atRest_of_not_ready (steady : Steady c) (stopped : c.stop = true) (pos : 0 < k)
    (idle : ¬ ready c k) : AtRest c := by
  have reads : c.interest = .read := by
    by_contra writes
    exact idle ⟨pos, fun reads => absurd reads writes⟩
  have done : c.input = [] := by
    by_contra more
    exact idle ⟨pos, fun _ => more⟩
  have here := steady.inv.inState
  have settled := steady.settled
  rw [InState] at here
  rw [Settled] at settled
  rw [AtRest]
  cases state : c.state with
  | newCmd =>
    simp only [state] at settled
    exact ⟨done, (settled stopped).2 reads, (settled stopped).1⟩
  | waiting | read => exact done
  | parseCmd =>
    rw [state] at here
    exact not_stopped here stopped
  | nread req data left =>
    rw [state] at here
    obtain ⟨some_, empty, -⟩ := here.2 stopped
    cases left with
    | zero => cases some_
    | succ left => exact ⟨done, empty⟩
  | swallow left =>
    rw [state] at here
    obtain ⟨some_, empty, -⟩ := here.2.2 stopped
    cases left with
    | zero => cases some_
    | succ left => exact ⟨done, empty⟩
  | mwrite =>
    rw [state] at here
    have writes := here.2 stopped
    rw [reads] at writes
    cases writes
  | closing =>
    rw [state] at here
    exact not_stopped here stopped
  | closed => trivial
  | watch dump =>
    simp only [state] at settled
    cases dump with
    | none => trivial
    | some dump => cases settled

theorem load_moves (steady : Steady c) (go : c.stop = false) (careful : Careful h c k) (pos : 0 < k)
    (moves : Moves h c k c') : AtRest c ∨ load h c' < load h c := by
  have low := le_load (h := h) c
  have high := load_le (h := h) c'
  obtain less | ⟨same, lull⟩ := effort_moves steady go careful moves
  · right
    omega
  by_cases state : c.state = .waiting
  · right
    cases moves with
    | wait =>
      simp only [load, state] at same ⊢
      rw [same]
      omega
    | _ => simp_all
  · exact .inl (lull.atRest steady.settled pos state)

theorem load_wake (stopped : c.stop = true) : load h (wake limits c) = load h c := by
  have same : effort h (wake limits c) = effort h c := effort_wake stopped
  simp only [load, same]
  rfl

/-- If nothing blocks, then every pass does some of the work that is left. -/
theorem load_passes (steady : Steady c) (careful : Careful h c k) (pos : 0 < k)
    (passes : Passes h limits c k c') : AtRest c ∨ load h c' < load h c := by
  obtain ⟨-, stopped, waits⟩ | ⟨d, rfl | ⟨rfl, stopped⟩, go, running, moves⟩ :=
    passes_cases steady passes
  · obtain idle | state | state := waits
    · exact .inl (atRest_of_not_ready steady stopped pos idle)
    · exact .inl (by simp only [AtRest, state])
    · exact .inl (by simp only [AtRest, state])
  · exact load_moves steady go careful pos moves
  · rw [← (load_wake stopped : load h (wake limits c) = load h c)]
    exact load_moves running go careful pos moves

theorem effort_passes (steady : Steady c) (careful : Careful h c k)
    (passes : Passes h limits c k c') : effort h c' ≤ effort h c := by
  have le {d : Conn σ ρ} (steady : Steady d) (go : d.stop = false) (careful : Careful h d k)
      (moves : Moves h d k c') : effort h c' ≤ effort h d := by
    obtain less | ⟨same, -⟩ := effort_moves steady go careful moves
    · exact less.le
    · exact same.le
  obtain ⟨rfl, -⟩ | ⟨d, rfl | ⟨rfl, stopped⟩, go, running, moves⟩ := passes_cases steady passes
  · exact Nat.le_refl _
  · exact le steady go careful moves
  · rw [← (effort_wake stopped : effort h (wake limits c) = effort h c)]
    exact le running go careful moves

theorem atRest_moves (rest : AtRest c) (moves : Moves h c k c') :
    AtRest c' ∧ c'.sent = c.sent := by
  have stays := rest
  rw [AtRest] at rest
  have nothing {rbuf input taken : List UInt8} {left : Nat}
      (takes : Takes c rbuf input taken left) : ¬(c.input = [] ∧ c.rbuf = []) := by
    rintro ⟨input, rbuf⟩
    have stream := congrArg List.length takes.stream
    have pos := takes.pos
    simp only [input, rbuf, List.length_append, List.length_nil] at stream
    omega
  cases moves with
  | parse state some_ nreqs =>
    rw [state] at rest
    exact absurd rest.2.1 some_
  | flush state queued nreqs =>
    rw [state] at rest
    exact absurd rest.2.2 queued
  | rest state empty none nreqs =>
    rw [state] at rest
    exact ⟨rest.1, rfl⟩
  | yield | thirst | ended => exact ⟨stays, rfl⟩
  | wait state buffer short =>
    rw [state] at rest
    exact ⟨rest, rfl⟩
  | dry state reads same none =>
    rw [state] at rest
    have fewer := reads.fewer
    obtain ⟨_, _, _, _, rfl⟩ := reads.frame
    rw [rest] at fewer
    exact ⟨List.length_eq_zero_iff.mp (Nat.le_zero.mp fewer), rfl⟩
  | got state reads less =>
    rw [state] at rest
    rw [rest] at less
    cases less
  | @data _ _ _ _ _ left _ state takes =>
    rw [state] at rest
    cases left with
    | zero => cases rest
    | succ left => exact absurd rest (nothing takes)
  | @starve _ _ left state short none =>
    rw [state] at rest
    cases left with
    | zero => cases rest
    | succ left => simp [AtRest, blockRead, rest]
  | @skip _ _ _ left _ state takes =>
    rw [state] at rest
    cases left with
    | zero => cases rest
    | succ left => exact absurd rest (nothing takes)
  | _ => simp_all

/-- Only the client ends the rest. -/
theorem atRest_passes (steady : Steady c) (rest : AtRest c) (passes : Passes h limits c k c') :
    AtRest c' ∧ c'.sent = c.sent := by
  obtain ⟨rfl, -⟩ | ⟨d, rfl | ⟨rfl, -⟩, -, -, moves⟩ := passes_cases steady passes
  · exact ⟨rest, rfl⟩
  · exact atRest_moves rest moves
  · exact atRest_moves (c := wake limits c) rest moves

end Kvsev.Connection
