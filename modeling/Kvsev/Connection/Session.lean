import Kvsev.Connection.Invariant
import Mathlib.Data.List.ReduceOption

/-!
# What a client's bytes mean

A session reads the bytes of a client one by one: it collects a line, runs the command,
and collects or skips the value that belongs to it. It knows nothing of reads, writes,
buffers and responses that wait. A connection shows a session, with the replies it has
sent and those it is going to send, and with the references that these hold given back. As
long as its passes are careful, what becomes of the session when the rest of the bytes is
fed to it does not change.
-/

namespace Kvsev.Connection

open Server

/-! ## Sessions -/

/-- What a session expects next. While a value is read, more bytes than the number are to
come. A value that is skipped belongs to a command whose reply is held back until then. -/
inductive Phase (ρ : Type) where
  | line (begun : List UInt8)
  | data (req : ρ) (data : List UInt8) (left : Nat)
  | swallow (reply : List UInt8) (left : Nat)
  | closed
  | watching

/-- The state of the server, what is expected next, and the replies. -/
structure Session (σ ρ : Type) where
  store : σ
  phase : Phase ρ
  out : List UInt8

namespace Session

section

variable {σ ρ : Type} (h : Handlers σ ρ)

/-- A value is read; when it is complete, the command is carried out. -/
def upload (store : σ) (out : List UInt8) (req : ρ) (data : List UInt8) : Nat → Session σ ρ
  | 0 =>
    let (r, store) := h.complete store req data
    ⟨released h store [r], .line [], out ++ unsent [r]⟩
  | left + 1 => ⟨store, .data req data left, out⟩

/-- A value is skipped. -/
def skip (store : σ) (out reply : List UInt8) : Nat → Session σ ρ
  | 0 => ⟨store, .line [], out ++ reply⟩
  | left + 1 => ⟨store, .swallow reply left, out⟩

/-- What a command does to a session. -/
def ofEffect (store : σ) (out : List UInt8) : Effect ρ → Session σ ρ
  | .answer rs _ => ⟨released h store rs, .line [], out ++ unsent rs⟩
  | .kill begun r => ⟨released h store (begun ++ [r]), .line [], out ++ unsent [r]⟩
  | .upload req vlen => upload h store out req [] (vlen + 2)
  | .swallow r vlen => skip (released h store [r]) out (unsent [r]) (vlen + 2)
  | .quit | .close => ⟨store, .closed, out⟩
  | .handOver _ => ⟨store, .watching, out⟩

/-- The command of a line. -/
def serve (store : σ) (out : List UInt8) (line : List UInt8) : Session σ ρ :=
  let (effect, store) := processCommand h store ⟨0, 0⟩ false (chomp line)
  ofEffect h store out effect

def feed (S : Session σ ρ) (b : UInt8) : Session σ ρ :=
  match S.phase with
  | .line begun =>
    if b = 10 then serve h S.store S.out begun else { S with phase := .line (begun ++ [b]) }
  | .data req data left => upload h S.store S.out req (data ++ [b]) left
  | .swallow reply left => skip S.store S.out reply left
  | .closed | .watching => S

def feeds (S : Session σ ρ) (bs : List UInt8) : Session σ ρ := bs.foldl (feed h) S

end

section

variable {σ ρ : Type} {h : Handlers σ ρ} {store : σ} {out : List UInt8}

theorem feeds_append (S : Session σ ρ) (xs ys : List UInt8) :
    feeds h S (xs ++ ys) = feeds h (feeds h S xs) ys := List.foldl_append

theorem feeds_line {bs : List UInt8} (clean : 10 ∉ bs) (begun : List UInt8) :
    feeds h ⟨store, .line begun, out⟩ bs = ⟨store, .line (begun ++ bs), out⟩ := by
  induction bs generalizing begun with
  | nil => rw [List.append_nil]; rfl
  | cons b bs ih =>
    have other : b ≠ 10 := fun same => clean (same ▸ List.mem_cons_self)
    have step : feed h (⟨store, .line begun, out⟩ : Session σ ρ) b =
        ⟨store, .line (begun ++ [b]), out⟩ := if_neg other
    have rest := ih (fun mem => clean (List.mem_cons_of_mem b mem)) (begun ++ [b])
    rw [List.append_assoc, List.singleton_append] at rest
    rw [← rest, ← step]
    rfl

theorem feeds_command {line : List UInt8} (clean : 10 ∉ line) (more : List UInt8) :
    feeds h ⟨store, .line [], out⟩ (line ++ 10 :: more) =
      feeds h (serve h store out line) more := by
  rw [feeds_append, feeds_line clean]
  rfl

theorem feeds_upload (req : ρ) (data xs : List UInt8) (n : Nat) :
    feeds h (upload h store out req data (xs.length + n)) xs =
      upload h store out req (data ++ xs) n := by
  induction xs generalizing data with
  | nil => rw [List.append_nil, List.length_nil, Nat.zero_add]; rfl
  | cons x xs ih =>
    have rest := ih (data ++ [x])
    rw [List.append_assoc, List.singleton_append] at rest
    rw [← rest, List.length_cons, Nat.add_right_comm]
    rfl

theorem feeds_skip (reply xs : List UInt8) (n : Nat) :
    feeds h (skip store out reply (xs.length + n)) xs = skip store out reply n := by
  induction xs with
  | nil => rw [List.length_nil, Nat.zero_add]; rfl
  | cons x xs ih =>
    rw [← ih, List.length_cons, Nat.add_right_comm]
    rfl

theorem feeds_closed (bs : List UInt8) :
    feeds h ⟨store, .closed, out⟩ bs = ⟨store, .closed, out⟩ := by
  induction bs with
  | nil => rfl
  | cons b bs ih => exact ih

theorem feeds_watching (bs : List UInt8) :
    feeds h ⟨store, .watching, out⟩ bs = ⟨store, .watching, out⟩ := by
  induction bs with
  | nil => rfl
  | cons b bs ih => exact ih

/-! Replies are only added. -/

theorem out_upload (req : ρ) (data : List UInt8) (n : Nat) :
    out <+: (upload h store out req data n).out := by
  cases n with
  | zero => exact List.prefix_append _ _
  | succ n => exact List.prefix_refl _

theorem out_skip (reply : List UInt8) (n : Nat) :
    out <+: (skip store out reply n : Session σ ρ).out := by
  cases n with
  | zero => exact List.prefix_append _ _
  | succ n => exact List.prefix_refl _

theorem out_ofEffect (effect : Effect ρ) : out <+: (ofEffect h store out effect).out := by
  cases effect with
  | answer rs flush | kill begun r => exact List.prefix_append _ _
  | upload req vlen | swallow r vlen | quit | close | handOver dump => exact List.prefix_refl _

theorem out_feed (S : Session σ ρ) (b : UInt8) : S.out <+: (feed h S b).out := by
  rw [feed]
  split
  · split
    · exact out_ofEffect _
    · exact List.prefix_refl _
  · exact out_upload _ _ _
  · exact out_skip _ _
  · exact List.prefix_refl _
  · exact List.prefix_refl _

theorem out_feeds (S : Session σ ρ) (bs : List UInt8) : S.out <+: (feeds h S bs).out := by
  induction bs generalizing S with
  | nil => exact List.prefix_refl _
  | cons b bs ih => exact (out_feed S b).trans (ih (feed h S b))

end

end Session

/-! ## Careful passes -/

section

variable {σ ρ : Type} (h : Handlers σ ρ)

/-- The keys of the calls of the tokenizer for a line. -/
def keysOf : Nat → List Key → Option (List UInt8) → List Key
  | more + 1, keys, some line =>
    keys ++ keysOf more (tokenizeCommand line).words (tokenizeCommand line).rest
  | _, keys, _ => keys

/-- The keys of a `get`. -/
def lineKeys (touch : Bool) (t : Tokens) : List Key :=
  keysOf (t.rest.getD []).length (t.words.drop (if touch then 2 else 1)) t.rest

/-- A line that neither asks for the traffic or the connection itself, nor throws replies
away that are not sent. -/
def CarefulLine (store : σ) (resps : List Resp) (t : Tokens) : Prop :=
  match dispatch t with
  | .get _ touch => (∀ key ∈ lineKeys touch t, key.length ≤ keyMaxLength) ∨ unsent resps = []
  | .shutdown | .http => unsent resps = []
  | .watch => h.watchEnabled store = true → resps = []
  | .metadump => ¬ (h.lruCrawler store = true ∧ h.dumpEnabled store = true)
  | .stats => False
  | _ => True

/-- It makes no difference to a step and its result whether the items of the responses are given
back before it or after it. -/
def Commutes {α : Type} (resps : List Resp) (f : σ → α × σ) (store : σ) : Prop :=
  f (released h store resps) = ((f store).1, released h (f store).2 resps)

/-- A pass that looks for a command finds a careful line, or the beginning of a line that
is short or looks like a large `get`. Commands do not depend on the references of responses that
wait. -/
def Careful (c : Conn σ ρ) (_ : Nat) : Prop :=
  match c.state with
  | .parseCmd =>
    match splitLine c.rbuf with
    | some (line, _) =>
      CarefulLine h c.store c.resps (tokenizeCommand (chomp line)) ∧
        Commutes h c.resps (processCommand h · ⟨0, 0⟩ false (chomp line)) c.store
    | none => c.rbuf.length ≤ 1024 ∨ beginsMultiget c.rbuf = true
  | .nread req data 0 => Commutes h c.resps (h.complete · req data) c.store
  | _ => True

instance (store : σ) (resps : List Resp) (t : Tokens) :
    Decidable (CarefulLine h store resps t) := by
  unfold CarefulLine
  split <;> infer_instance

instance {α : Type} [DecidableEq α] [DecidableEq σ] (resps : List Resp) (f : σ → α × σ)
    (store : σ) : Decidable (Commutes h resps f store) :=
  inferInstanceAs (Decidable (_ = _))

instance [DecidableEq σ] [DecidableEq ρ] (c : Conn σ ρ) (k : Nat) : Decidable (Careful h c k) := by
  unfold Careful
  cases c
  dsimp only
  split
  · split <;> infer_instance
  · infer_instance
  · infer_instance

end

section

variable {σ ρ : Type} (h : Handlers σ ρ) (returnCas : Bool) (touch : Option Nat)

/-- Each key is looked up once, in order. -/
def lookups : σ → List Key → List (Option Hit) × σ
  | s, [] => ([], s)
  | s, key :: keys =>
    let (hit, s) := h.lookup s returnCas touch key
    let (hits, s) := lookups s keys
    (hit :: hits, s)

theorem lookups_append (s : σ) (keys more : List Key) :
    lookups h returnCas touch s (keys ++ more) =
      let (hits, s) := lookups h returnCas touch s keys
      let (later, s) := lookups h returnCas touch s more
      (hits ++ later, s) := by
  induction keys generalizing s with
  | nil => rfl
  | cons key keys ih => simp only [List.cons_append, lookups, ih]

theorem getKeys_eq_lookups (s : σ) {keys : List Key}
    (short : ∀ key ∈ keys, key.length ≤ keyMaxLength) :
    getKeys h returnCas touch s keys =
      (.ok (lookups h returnCas touch s keys).1, (lookups h returnCas touch s keys).2) := by
  induction keys generalizing s with
  | nil => rfl
  | cons key keys ih =>
    rw [getKeys, if_neg (Nat.not_lt_of_le (short key List.mem_cons_self))]
    simp only [ih _ fun key mem => short key (List.mem_cons_of_mem _ mem), lookups]
    rfl

/-- What is found by a batch, up to the empty response of one that has no words. -/
def Shows (found : Found × σ) (expected : List (Option Hit) × σ) : Prop :=
  ∃ hits, found = (.ok hits, expected.2) ∧ hits ≠ [] ∧
    hits.reduceOption = expected.1.reduceOption

theorem getBatch_shows (s : σ) {keys : List Key} (short : ∀ key ∈ keys, key.length ≤ keyMaxLength) :
    Shows (getBatch h returnCas touch s keys) (lookups h returnCas touch s keys) := by
  cases keys with
  | nil => exact ⟨[none], rfl, by simp, rfl⟩
  | cons key keys =>
    rw [getBatch, if_neg (List.cons_ne_nil _ _), getKeys_eq_lookups _ _ _ _ short]
    exact ⟨_, rfl, List.cons_ne_nil _ _, rfl⟩

theorem getBatches_shows {more : Nat} (s : σ) {keys : List Key} {rest : Option (List UInt8)}
    (short : ∀ key ∈ keysOf more keys rest, key.length ≤ keyMaxLength) :
    Shows (getBatches h returnCas touch more s keys rest)
      (lookups h returnCas touch s (keysOf more keys rest)) := by
  induction more generalizing s keys rest with
  | zero => exact getBatch_shows h returnCas touch s short
  | succ more ih =>
    cases rest with
    | none =>
      obtain ⟨hits, found, shown⟩ := getBatch_shows h returnCas touch s
        (show ∀ key ∈ keys, key.length ≤ keyMaxLength from short)
      refine ⟨hits, ?_, shown⟩
      simp only [getBatches, found]
      rfl
    | some line =>
      rw [keysOf] at short ⊢
      obtain ⟨hits, found, nonempty, shown⟩ := getBatch_shows h returnCas touch s
        fun key mem => short key (List.mem_append_left _ mem)
      obtain ⟨later, rest, -, shown_later⟩ := ih (lookups h returnCas touch s keys).2
        fun key mem => short key (List.mem_append_right _ mem)
      rw [lookups_append]
      refine ⟨hits ++ later, ?_, by simp [nonempty], ?_⟩
      · simp only [getBatches, found, rest]
        rfl
      · simp only [List.reduceOption_append, shown, shown_later]

end

section

variable {σ ρ : Type} {h : Handlers σ ρ}

/-- What a command does where the others have no replies to lose. -/
def Effect.Harmless (resps : List Resp) : Effect ρ → Prop
  | .kill _ _ | .close => unsent resps = []
  | .handOver dump => dump = none ∧ resps = []
  | _ => True

theorem getAll_harmless {s : σ} {returnCas : Bool} {touch : Option Nat} {keys : List Key}
    {rest : Option (List UInt8)} {resps : List Resp}
    (careful : (∀ key ∈ keysOf (rest.getD []).length keys rest, key.length ≤ keyMaxLength) ∨
      unsent resps = []) : (getAll h s returnCas touch keys rest).1.Harmless resps := by
  rw [getAll]
  dsimp only
  obtain short | sent := careful
  · obtain ⟨hits, found, -⟩ := getBatches_shows h returnCas touch s short
    rw [found]
    trivial
  · cases (getBatches h returnCas touch (rest.getD []).length s keys rest).1 with
    | error hits => exact sent
    | ok hits => trivial

/-- Under the condition, a command does the same as it would in a session. -/
theorem processCommand_careful {s : σ} {resps : List Resp} {command : List UInt8}
    (careful : CarefulLine h s resps (tokenizeCommand command)) (traffic : Traffic) :
    processCommand h s traffic (!resps.isEmpty) command =
        processCommand h s ⟨0, 0⟩ false command ∧
      (processCommand h s ⟨0, 0⟩ false command).1.Harmless resps := by
  rw [CarefulLine] at careful
  rw [processCommand, processCommand]
  cases eq : dispatch (tokenizeCommand command) with
  | get returnCas touch =>
    rw [eq] at careful
    refine ⟨rfl, ?_⟩
    simp only
    rw [processGetCommand]
    cases touch with
    | true =>
      rw [if_pos rfl]
      split
      · trivial
      · exact getAll_harmless careful
    | false => exact getAll_harmless careful
  | update comm =>
    refine ⟨rfl, ?_⟩
    simp only
    cases (h.update s comm (tokenizeCommand command)).1 <;> trivial
  | mset =>
    refine ⟨rfl, ?_⟩
    simp only
    cases (h.mset s (tokenizeCommand command)).1 <;> trivial
  | mn => exact ⟨rfl, trivial⟩
  | stats =>
    rw [eq] at careful
    cases careful
  | shutdown =>
    rw [eq] at careful
    refine ⟨rfl, ?_⟩
    simp only
    split
    · trivial
    · exact careful
  | metadump =>
    rw [eq] at careful
    simp only [processMetadump]
    split
    · exact ⟨rfl, trivial⟩
    rename_i crawler
    split
    · exact ⟨rfl, trivial⟩
    rename_i dump
    exact absurd ⟨of_not_not crawler, of_not_not dump⟩ careful
  | watch =>
    rw [eq] at careful
    simp only [processWatchCommand]
    split
    · exact ⟨rfl, trivial⟩
    rename_i enabled
    have alone := careful (of_not_not enabled)
    rw [alone]
    refine ⟨rfl, ?_⟩
    rw [if_neg Bool.false_ne_true]
    split
    · trivial
    · exact ⟨rfl, rfl⟩
  | quit => exact ⟨rfl, trivial⟩
  | http =>
    rw [eq] at careful
    exact ⟨rfl, careful⟩
  | error | other => exact ⟨rfl, trivial⟩

end

/-! ## The session of a connection -/

section

variable {σ ρ : Type} {h : Handlers σ ρ} {limits : Limits} {c c' : Conn σ ρ} {k : Nat}

theorem released_append (s : σ) (rs rs' : List Resp) :
    released h s (rs ++ rs') = released h (released h s rs) rs' := by
  rw [released, released, released, List.filterMap_append, List.foldl_append]

/-- The response to a command whose value is being skipped. -/
def held (resps : List Resp) : List Resp := resps.drop (resps.length - 1)

theorem unsent_held (resps : List Resp) :
    unsent resps.dropLast ++ unsent (held resps) = unsent resps := by
  rw [held, ← unsent_append, List.dropLast_eq_take, List.take_append_drop]

/-- The replies, those that wait included. -/
def queued (c : Conn σ ρ) : List UInt8 := c.sent ++ unsent c.resps

/-- The session a connection shows. A connection that is being closed sends nothing more. -/
def view (h : Handlers σ ρ) (c : Conn σ ρ) : Session σ ρ :=
  let store := released h c.store c.resps
  match c.state with
  | .newCmd | .waiting | .read | .parseCmd => ⟨store, .line [], queued c⟩
  | .mwrite => ⟨store, if c.closeAfterWrite then .closed else .line [], queued c⟩
  | .nread req data left => .upload h store (queued c) req data left
  | .swallow left => .skip store (c.sent ++ unsent c.resps.dropLast) (unsent (held c.resps)) left
  | .closing | .closed => ⟨store, .closed, c.sent⟩
  | .watch _ => ⟨store, .watching, queued c⟩

/-- What becomes of the session with the bytes to come. -/
def future (h : Handlers σ ρ) (c : Conn σ ρ) : Session σ ρ :=
  (view h c).feeds h (c.rbuf ++ c.input)

/-- The crawler does not have the connection, and if the machine has stopped between two
commands it waits for the next one. -/
def Settled (c : Conn σ ρ) : Prop :=
  match c.state with
  | .newCmd => c.stop = true → c.resps = [] ∧ (c.interest = .read → c.rbuf = [])
  | .watch (some _) => False
  | _ => True

/-- A connection that is being closed has no replies to lose. -/
def Kept (c : Conn σ ρ) : Prop := c.state = .closing → unsent c.resps = []

/-- The invariant of careful passes. -/
structure Steady (c : Conn σ ρ) : Prop where
  inv : Inv c
  settled : Settled c
  kept : Kept c

theorem Steady.new (s : σ) (input : List UInt8) : Steady (Conn.new s input : Conn σ ρ) :=
  ⟨Inv.new s input, fun _ => ⟨rfl, fun _ => rfl⟩, nofun⟩

/-- A pass that changes nothing for the client: no reply that waits is taken back, and the
session goes on as before. -/
structure Carries (h : Handlers σ ρ) (c c' : Conn σ ρ) : Prop where
  settled : Settled c'
  kept : Kept c'
  replies : queued c <+: queued c'
  future : future h c' = future h c

/-- The replies are as they were. -/
theorem Carries.same (settled : Settled c') (stays : c'.state ≠ .closing)
    (replies : queued c' = queued c) (future : Connection.future h c' = Connection.future h c) :
    Carries h c c' :=
  ⟨settled, fun closing => absurd closing stays, replies ▸ List.prefix_refl _, future⟩

section

variable {effect : Effect ρ} (harmless : effect.Harmless c.resps)

include harmless

theorem view_apply (closes : c.closeAfterWrite = false) :
    view h (c.apply h effect) = .ofEffect h (released h c.store c.resps) (queued c) effect := by
  have begun : unsent [Resp.empty] = [] := rfl
  have free (s : σ) : released h s [Resp.empty] = s := rfl
  cases effect with
  | answer rs flush =>
    cases flush <;>
      simp [Conn.apply, view, queued, Session.ofEffect, closes, released_append, unsent_append]
  | kill killed r =>
    have sent : unsent c.resps = [] := harmless
    simp [Conn.apply, view, queued, Session.ofEffect, sent, released_append]
  | upload req vlen | quit | handOver dump =>
    simp [Conn.apply, view, queued, Session.ofEffect, released_append, unsent_append, begun, free]
  | swallow r vlen =>
    simp [Conn.apply, view, queued, held, Session.ofEffect, released_append]
  | close =>
    have sent : unsent c.resps = [] := harmless
    simp [Conn.apply, view, queued, Session.ofEffect, released_append, sent, free]

theorem settled_apply (go : c.stop = false) : Settled (c.apply h effect) := by
  cases effect with
  | answer rs flush =>
    cases flush with
    | true => trivial
    | false => exact not_stopped go
  | kill killed r => exact not_stopped go
  | upload req vlen | swallow r vlen | quit | close => trivial
  | handOver dump =>
    obtain ⟨rfl, -⟩ := harmless
    trivial

theorem queued_apply : queued c <+: queued (c.apply h effect) ∧ Kept (c.apply h effect) := by
  have more (rs : List Resp) : queued c <+: c.sent ++ unsent (c.resps ++ rs) := by
    rw [unsent_append, ← List.append_assoc]
    exact List.prefix_append _ _
  cases effect with
  | answer rs flush =>
    refine ⟨more rs, ?_⟩
    cases flush <;> rintro ⟨⟩
  | kill killed r =>
    have sent : unsent c.resps = [] := harmless
    refine ⟨?_, by rintro ⟨⟩⟩
    rw [queued, sent, List.append_nil]
    exact List.prefix_append _ _
  | upload req vlen | swallow r vlen | quit | handOver dump => exact ⟨more _, by rintro ⟨⟩⟩
  | close =>
    have sent : unsent c.resps = [] := harmless
    refine ⟨more _, fun _ => ?_⟩
    simp only [Conn.apply, unsent_append, sent, List.nil_append]
    rfl

end

/-- A careful command does no harm, and it does the same to the session. -/
theorem command_careful {line rest : List UInt8} {effect : Effect ρ} {store : σ}
    (state : c.state = .parseCmd) (careful : Careful h c k)
    (split : splitLine c.rbuf = some (line, rest))
    (ran : processCommand h c.store c.traffic (!c.resps.isEmpty) (chomp line) = (effect, store)) :
    effect.Harmless c.resps ∧
      processCommand h (released h c.store c.resps) ⟨0, 0⟩ false (chomp line) =
        (effect, released h store c.resps) := by
  rw [Careful, state] at careful
  simp only [split] at careful
  obtain ⟨same, harmless⟩ := processCommand_careful careful.1 c.traffic
  have commutes := careful.2
  rw [Commutes] at commutes
  rw [← same, ran] at harmless commutes
  exact ⟨harmless, commutes⟩

theorem carries_command {line rest : List UInt8} {effect : Effect ρ} {store : σ} (steady : Steady c)
    (go : c.stop = false) (state : c.state = .parseCmd) (careful : Careful h c k)
    (split : splitLine c.rbuf = some (line, rest))
    (ran : processCommand h c.store c.traffic (!c.resps.isEmpty) (chomp line) = (effect, store)) :
    Carries h c (Conn.apply h { c with store, rbuf := rest } effect) := by
  obtain ⟨harmless, ran'⟩ := command_careful state careful split ran
  obtain ⟨whole, clean⟩ := splitLine_some split
  have closes := steady.inv.closes (by rw [state]; rfl)
  have same : queued { c with store, rbuf := rest } = queued c := rfl
  obtain ⟨replies, kept⟩ := queued_apply (h := h) (c := { c with store, rbuf := rest }) harmless
  refine ⟨settled_apply (c := { c with store, rbuf := rest }) harmless go, kept, replies, ?_⟩
  have here : future h c =
      Session.feeds h ⟨released h c.store c.resps, .line [], queued c⟩ (c.rbuf ++ c.input) := by
    simp only [future, view, state]
  have shown := view_apply (h := h) (c := { c with store, rbuf := rest }) harmless closes
  rw [here, whole, List.append_assoc, List.cons_append, Session.feeds_command clean, future, shown,
    Session.serve, ran']
  cases effect <;> rfl

theorem carries_complete {req : ρ} {data : List UInt8} (steady : Steady c) (go : c.stop = false)
    (state : c.state = .nread req data 0) (careful : Careful h c k) :
    Carries h c (completeNread h c req data) := by
  obtain ⟨front, last⟩ := steady.inv.begun state
  have begun : unsent [Resp.empty] = [] := rfl
  have free (s : σ) : released h s [Resp.empty] = s := rfl
  rw [Careful, state] at careful
  have commutes : h.complete (released h c.store c.resps) req data = _ := careful
  refine ⟨not_stopped go, nofun, ?_, ?_⟩
  · simp only [queued, completeNread, last, List.dropLast_concat, unsent_append, begun,
      List.append_nil]
    rw [← List.append_assoc]
    exact List.prefix_append _ _
  · simp only [future, view, queued, completeNread, state, Session.upload, commutes]
    simp only [last, List.dropLast_concat, released_append, unsent_append, begun, free,
      List.append_nil, List.append_assoc]

variable {taken rbuf input : List UInt8} {left : Nat} (takes : Takes c rbuf input taken left)

include takes

theorem Takes.count : left = taken.length + (left - taken.length) :=
  (Nat.add_sub_cancel' takes.bound).symm

theorem carries_data {req : ρ} {data : List UInt8} {traffic : Traffic}
    (state : c.state = .nread req data left) :
    Carries h c { c with
      rbuf, input, traffic, state := .nread req (data ++ taken) (left - taken.length) } := by
  refine .same trivial nofun rfl ?_
  have here : future h c = Session.feeds h (.upload h (released h c.store c.resps) (queued c) req
      data left) (c.rbuf ++ c.input) := by
    simp only [future, view, state]
  rw [here, takes.stream, Session.feeds_append, takes.count, Session.feeds_upload]
  simp only [← takes.count]
  rfl

theorem carries_skip {traffic : Traffic} (state : c.state = .swallow left) :
    Carries h c { c with rbuf, input, traffic, state := .swallow (left - taken.length) } := by
  refine .same trivial nofun rfl ?_
  have here : future h c = Session.feeds h (.skip (released h c.store c.resps)
      (c.sent ++ unsent c.resps.dropLast) (unsent (held c.resps)) left) (c.rbuf ++ c.input) := by
    simp only [future, view, state]
  rw [here, takes.stream, Session.feeds_append, takes.count, Session.feeds_skip]
  simp only [← takes.count]
  rfl

end

section

variable {σ ρ : Type} {h : Handlers σ ρ} {limits : Limits} {c c' : Conn σ ρ} {k : Nat}

/-- What was sent and the references that were given back were the first. -/
theorem withOutput_total {out : Output} {more : List UInt8}
    (progress : Progress c.resps more out.resps) (sent : out.sent = c.sent ++ more) :
    queued (c.withOutput h out) = queued c ∧
      released h (c.withOutput h out).store out.resps = released h c.store c.resps := by
  constructor
  · simp only [queued, Conn.withOutput]
    rw [sent, List.append_assoc, progress.total]
  · simp only [Conn.withOutput, released]
    rw [← List.foldl_append, progress.items]

theorem carries_sent {out : Output} {more : List UInt8} (go : c.stop = false)
    (state : c.state = .mwrite) (progress : Progress c.resps more out.resps)
    (sent : out.sent = c.sent ++ more) (done : out.resps = []) :
    Carries h c (sentAll h (c.withOutput h out)) := by
  obtain ⟨replies, store⟩ := withOutput_total (h := h) progress sent
  have all : queued (c.withOutput h out) = out.sent := by
    simp only [queued, Conn.withOutput, done]
    exact List.append_nil _
  have same : queued (sentAll h (c.withOutput h out)) = queued c := by
    rw [← replies, all]
    exact List.append_nil _
  have given : (sentAll h (c.withOutput h out)).store = released h c.store c.resps := store
  refine ⟨?_, fun _ => rfl, same ▸ List.prefix_refl _, ?_⟩
  · rw [Settled, sentAll]
    cases (c.withOutput h out).closeAfterWrite with
    | true => trivial
    | false => exact not_stopped go
  · have last : (c.withOutput h out).closeAfterWrite = c.closeAfterWrite := rfl
    cases closes : c.closeAfterWrite with
    | true =>
      simp only [future, view, state, sentAll, last, closes, if_true, Session.feeds_closed]
      rw [← replies, all, ← given]
      rfl
    | false =>
      simp only [future, view, state, sentAll, last, closes, Bool.false_eq_true, if_false]
      rw [← same, ← given]
      rfl

/-- A careful pass changes nothing for the client. -/
theorem carries_moves (steady : Steady c) (go : c.stop = false) (careful : Careful h c k)
    (moves : Moves h c k c') : Carries h c c' := by
  have closes := steady.inv.closes
  cases moves with
  | parse state some_ nreqs =>
    exact .same trivial nofun rfl (by simp only [future, view, state]; rfl)
  | flush state queued nreqs =>
    rw [state] at closes
    exact .same trivial nofun rfl (by simp [future, view, state, closes rfl]; rfl)
  | rest state empty none nreqs =>
    exact .same trivial nofun rfl (by simp only [future, view, state]; rfl)
  | yield state zero none =>
    refine .same ?_ (by simp [state]) rfl (by simp only [future, view, state]; rfl)
    simp only [Settled, state]
    refine fun _ => ⟨none, fun reads => ?_⟩
    by_contra some_
    rw [if_pos some_] at reads
    cases reads
  | wait state buffer short =>
    exact .same trivial nofun rfl (by simp only [future, view, state]; rfl)
  | dry state reads same none =>
    have stream := reads.stream
    obtain ⟨_, _, _, _, rfl⟩ := reads.frame
    refine .same trivial nofun rfl ?_
    simp only [future, view, state] at stream ⊢
    rw [stream]
    rfl
  | got state reads less =>
    have stream := reads.stream
    obtain ⟨_, _, _, _, rfl⟩ := reads.frame
    refine .same trivial nofun rfl ?_
    simp only [future, view, state] at stream ⊢
    rw [stream]
    rfl
  | refuse state none long =>
    rw [Careful, state] at careful
    simp only [none] at careful
    exact absurd careful fun either => either.elim (Nat.not_le_of_lt long.1) long.2
  | more state none buffer long =>
    rw [state] at closes
    by_cases empty : c.resps = []
    · refine .same (by simp [Settled, empty]) (by simp [empty]) rfl ?_
      simp [future, view, state, empty, queued]
    · refine .same (by simp [Settled, empty]) (by simp [empty]) rfl ?_
      simp [future, view, state, empty, closes rfl, queued]
  | command state split ran => exact carries_command steady go state careful split ran
  | complete state => exact carries_complete steady go state careful
  | data state takes => exact carries_data takes state
  | @starve req data left state short none =>
    refine .same trivial nofun rfl ?_
    have count : left = c.rbuf.length + (left - c.rbuf.length) :=
      (Nat.add_sub_cancel' short.le).symm
    have here : future h c = Session.feeds h (.upload h (released h c.store c.resps) (queued c) req
        data left) (c.rbuf ++ c.input) := by
      simp only [future, view, state]
    rw [here, Session.feeds_append, count, Session.feeds_upload, ← count]
    rfl
  | skipped state =>
    refine .same (not_stopped go) nofun rfl ?_
    simp only [future, view, queued, state, Session.skip, List.append_assoc, unsent_held]
  | skip state takes => exact carries_skip takes state
  | thirst state pos empty none =>
    refine .same ?_ (by simp [blockRead, state]) rfl ?_
    · simp only [Settled, blockRead, state]
    · simp only [future, view, blockRead, state]
  | sent state progress sent done => exact carries_sent go state progress sent done
  | @part out more state progress sent left falls =>
    obtain ⟨replies, store⟩ := withOutput_total (h := h) progress sent
    refine .same ?_ (by simp [Conn.withOutput, state]) replies ?_
    · simp only [Settled, Conn.withOutput, state]
    · have state' : (c.withOutput h out).state = .mwrite := state
      simp only [future, view, state, state']
      rw [← replies, ← store]
      rfl
  | full state zero =>
    refine .same ?_ (by simp [state]) rfl ?_
    · simp only [Settled, state]
    · simp only [future, view, state]
      rfl
  | close state =>
    refine ⟨trivial, by rintro ⟨⟩, ?_, ?_⟩
    · rw [queued, steady.kept state, List.append_nil]
      exact List.prefix_append _ _
    · simp only [future, view, closing, state, Session.feeds_closed]
      rfl
  | ended state =>
    have settled := steady.settled
    rw [Settled] at settled
    obtain state | ⟨dump, state⟩ := state
    · refine .same ?_ (by simp [state]) rfl (by simp only [future, view, state])
      simp only [Settled, state]
    · refine .same ?_ (by simp [state]) rfl (by simp only [future, view, state]; rfl)
      rw [state] at settled
      cases dump with
      | none => simp only [Settled, state]
      | some dump => cases settled

theorem settled_wake (settled : Settled c) : Settled (wake limits c) := by
  rw [Settled] at settled
  simp only [Settled, wake]
  split at settled
  · rintro ⟨⟩
  · exact settled
  · trivial

theorem Steady.wake (steady : Steady c) : Steady (wake limits c) :=
  ⟨inv_wake limits steady.inv, settled_wake steady.settled, steady.kept⟩

/-- A careful pass leaves the connection as it is, or is one of a machine that runs. -/
theorem passes_cases (steady : Steady c) (passes : Passes h limits c k c') :
    c' = c ∧ c.stop = true ∧ (¬ready c k ∨ c.state = .closed ∨ c.state = .watch none) ∨
      ∃ d, (d = c ∨ d = wake limits c ∧ c.stop = true) ∧ d.stop = false ∧ Steady d ∧
        Moves h d k c' := by
  cases passes with
  | idle stopped waits => exact .inl ⟨rfl, stopped, waits⟩
  | back state stopped event =>
    have never := steady.settled
    rw [Settled, state] at never
    cases never
  | wake stopped event =>
    exact .inr ⟨_, .inr ⟨rfl, stopped⟩, rfl, steady.wake, advance_moves steady.wake.inv k⟩
  | go go => exact .inr ⟨c, .inl rfl, go, steady, advance_moves steady.inv k⟩

theorem carries_passes (steady : Steady c) (careful : Careful h c k)
    (passes : Passes h limits c k c') : Steady c' ∧ Carries h c c' := by
  have inv := inv_passes steady.inv passes
  obtain ⟨rfl, -⟩ | ⟨d, rfl | ⟨rfl, -⟩, go, steady, moves⟩ := passes_cases steady passes
  · exact ⟨steady, steady.settled, steady.kept, List.prefix_refl _, rfl⟩
  all_goals
    have carries := carries_moves steady go careful moves
    exact ⟨⟨inv, carries.settled, carries.kept⟩, carries.settled, carries.kept, carries.replies,
      carries.future⟩

end

end Kvsev.Connection
