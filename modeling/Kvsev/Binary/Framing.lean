import Kvsev.Binary.Machine

/-!
# Where the next request begins

A request ends 24 bytes and the length of its body after it began. The connection finds the
next one there only if it takes as many bytes. That is so exactly if the rest of the body is
short enough for an `int`, and if it is empty for the commands that do not look at it. A
command that is not known must not have a key or extras, and where nothing is to be thrown
away there must be nothing left of an earlier request.
-/

namespace Kvsev.Binary

open Server Transition

variable {cfg : Config} {e : Event} {h : Header} {c c' : Conn} {m n flags total : Nat}

/-! ## Lengths as `int` -/

theorem intOf_lt (n : Int) : intOf n < 2 ^ 31 := by
  have := Int.bmod_lt (x := n) (m := 2 ^ 32) (by decide)
  unfold intOf
  omega

theorem intOf_of_lt (small : n < 2 ^ 31) : intOf n = n := by
  unfold intOf
  rw [Int.bmod_eq_of_le] <;> omega

/-- A length that does not fit becomes a negative one. -/
theorem intOf_of_le (large : 2 ^ 31 ≤ n) (bound : n < 2 ^ 32) : intOf n = n - 2 ^ 32 := by
  unfold intOf
  have same : ((n : Int) - 2 ^ 32).bmod (2 ^ 32) = (n : Int).bmod (2 ^ 32) := by
    have := Int.sub_mul_bmod_self_right (n : Int) 1 (2 ^ 32)
    simpa using this
  rw [← same, Int.bmod_eq_of_le] <;> omega

theorem body_lt (h : Header) : h.body < 2 ^ 32 := h.bodylen.toNat_lt

theorem rest_lt (h : Header) : h.rest < 2 ^ 32 := Nat.lt_of_le_of_lt (Nat.sub_le _ _) (body_lt h)

theorem vlen_eq (whole : h.key + h.ext ≤ h.body) :
    (h.body : Int) - (h.key + h.ext) = (h.rest : Int) := by
  unfold Header.rest
  omega

/-- The memory for an empty value. -/
theorem nbytes_of_empty (empty : n = 0) : intOf (intOf n + 2) = 2 := by
  rw [empty]
  decide

/-- There is no item for a length that does not fit. -/
theorem itemSizeOk_of_le (large : 2 ^ 31 ≤ n) (bound : n < 2 ^ 32) (nkey flags : Nat) :
    itemSizeOk cfg nkey flags (intOf (intOf n + 2)) = false := by
  have few : intOf (intOf n + 2) < 2 := by
    rw [intOf_of_le large bound]
    unfold intOf
    rw [Int.bmod_eq_of_le] <;> omega
  unfold itemSizeOk
  rw [decide_eq_false_iff_not]
  exact fun ok => absurd ok.1 (Int.not_le.mpr few)

/-! ## What is left of a request -/

/-- How many bytes the connection is going to take before the request is over. -/
def owed (c : Conn) : Nat :=
  match c.state with
  | .swallow => c.sbytes.toNat
  | .nread => c.rlbytes.toNat
  | _ => 0

/-- A request is served that ends when the connection has taken `total` bytes, or the
connection is closed. -/
inductive Serving (total : Nat) (c : Conn) : Prop
  | going (state : c.state = .newCmd ∨ c.state = .mwrite ∨ c.state = .swallow ∨ c.state = .nread)
      (count : c.taken + owed c = total)
  | dead (state : c.state = .closing ∨ c.state = .closed)

theorem Serving.nread (state : c.state = .nread) (count : c.taken + c.rlbytes.toNat = total) :
    Serving total (nread e c) := by
  unfold Binary.nread
  dsimp only
  split
  · next done =>
      rw [done] at count
      unfold answer writeBinError writeBinResponse
      split
      · exact .going (.inr (.inl rfl)) count
      · exact .going (.inl rfl) count
  · split
    · exact .dead (.inl rfl)
    · split
      · exact .going (.inr (.inr (.inl rfl))) count
      · refine .going (.inr (.inr (.inr state))) ?_
        simp only [owed, state]
        omega

theorem Serving.swallow (state : c.state = .swallow) (count : c.taken + c.sbytes.toNat = total) :
    Serving total (swallow e c) := by
  unfold Binary.swallow
  dsimp only
  split
  · refine .going (.inl rfl) ?_
    simp only [owed]
    omega
  split
  all_goals
    refine .going (.inr (.inr (.inl state))) ?_
    simp only [owed, state]
    omega

theorem Serving.advance (serving : Serving total c) (busy : c.state ≠ .newCmd) :
    Serving total (advance cfg e c) := by
  unfold Binary.advance
  cases serving with
  | dead state =>
    obtain state | state := state
    all_goals
      simp only [state]
      exact .dead (.inr rfl)
  | going state count =>
    obtain state | state | state | state := state
    · exact absurd state busy
    · simp only [state, owed] at count ⊢
      unfold mwrite
      split
      · refine .going (.inr (.inl state)) ?_
        simpa only [owed, state] using count
      · split
        · exact .dead (.inl rfl)
        · exact .going (.inl rfl) count
    · simp only [state, owed] at count ⊢
      exact .swallow state count
    · simp only [state, owed] at count ⊢
      exact .nread state count

theorem Serving.receive (serving : Serving total c) (more : List UInt8) :
    Serving total (c.receive more) := by
  cases serving with
  | dead state => exact .dead state
  | going state count => exact .going state count

theorem Serving.run {es : List Event} (serving : Serving total c)
    (busy : Meets (Binary.step cfg) (fun c _ => c.state ≠ .newCmd) c es)
    (ran : run (Binary.step cfg) c es = .ok c') : Serving total c' :=
  holds_of_run (fun _ _ _ serving busy ran => by
    obtain rfl := Except.ok.inj ran
    exact (serving.receive _).advance busy) serving busy ran

theorem Serving.taken_eq (serving : Serving total c) (state : c.state = .newCmd) :
    c.taken = total := by
  cases serving with
  | going _ count => simpa only [owed, state, Nat.add_zero] using count
  | dead dead =>
    rw [state] at dead
    obtain dead | dead := dead
    · cases dead
    · cases dead

/-- The connection is going to be closed. -/
def Dying (c : Conn) : Prop :=
  (c.state = .mwrite ∧ c.closeAfterWrite = true) ∨ c.state = .closing ∨ c.state = .closed

theorem Dying.advance (dying : Dying c) : Dying (advance cfg e c) := by
  unfold Binary.advance
  obtain ⟨state, closes⟩ | state | state := dying
  · simp only [state]
    rw [mwrite, if_pos closes]
    split
    · exact .inl ⟨state, closes⟩
    · exact .inr (.inl rfl)
  · simp only [state]
    exact .inr (.inr rfl)
  · simp only [state]
    exact .inr (.inr rfl)

theorem Dying.run {es : List Event} (dying : Dying c)
    (ran : run (Binary.step cfg) c es = .ok c') : Dying c' := by
  induction es generalizing c with
  | nil =>
    cases ran
    exact dying
  | cons e es ih => exact ih (Dying.advance (c := c.receive e.more) dying) ran

/-! ## Requests come to an end -/

/-- The request can be served to its end. -/
def Reaches (cfg : Config) (c : Conn) : Prop :=
  ∃ es c', Meets (step cfg) (fun c _ => c.state ≠ .newCmd) c es ∧
    run (step cfg) c es = .ok c' ∧ c'.state = .newCmd

theorem Reaches.of_newCmd (state : c.state = .newCmd) : Reaches cfg c :=
  ⟨[], c, trivial, rfl, state⟩

theorem Reaches.of_step (busy : c.state ≠ .newCmd) (ran : step cfg c e = .ok c')
    (reaches : Reaches cfg c') : Reaches cfg c := by
  obtain ⟨es, c'', meets, ran', state⟩ := reaches
  refine ⟨e :: es, c'', ⟨busy, ?_⟩, ?_, state⟩
  · intro c₁ ran₁
    rw [ran] at ran₁
    obtain rfl := Except.ok.inj ran₁
    exact meets
  · rw [run_cons ran]
    exact ran'

theorem reaches_of_mwrite (state : c.state = .mwrite) (open_ : c.closeAfterWrite = false) :
    Reaches cfg c := by
  refine .of_step (e := {}) (by rw [state]; nofun) rfl (.of_newCmd ?_)
  simp only [advance, Conn.receive, state, mwrite, open_]
  rfl

theorem reaches_of_swallow (state : c.state = .swallow) (room : 0 < c.rsize) : Reaches cfg c := by
  induction left : c.sbytes.toNat using Nat.strong_induction_on generalizing c with
  | _ left ih =>
    subst left
    have busy : c.state ≠ .newCmd := by
      rw [state]
      nofun
    -- In each pass one more byte is there to be thrown away.
    refine .of_step (e := { more := [0], k := 1 }) busy rfl ?_
    simp only [advance, Conn.receive, state, swallow]
    split
    · exact .of_newCmd rfl
    split
    · next some =>
        have pos : 0 < c.rbuf.length := List.length_pos_of_ne_nil some
        exact ih _ (by dsimp only; omega) rfl room rfl
    · refine ih _ ?_ rfl room rfl
      simp only [List.length_append, List.length_singleton]
      omega

/-- Whenever the request is over, the connection has taken `total` bytes. -/
def EndsAt (cfg : Config) (c : Conn) (total : Nat) : Prop :=
  ∀ es c', Meets (step cfg) (fun c _ => c.state ≠ .newCmd) c es →
    run (step cfg) c es = .ok c' → c'.state = .newCmd → c'.taken = total

/-! ## What commands leave -/

/-- A command that was begun leaves exactly `n` bytes to be taken if the condition holds, and
otherwise more or less. -/
inductive Leaves (c r : Conn) (n : Nat) (cond : Prop) : Prop
  | closes (dying : Dying r) (holds : cond)
  | reads (state : r.state = .nread) (taken : r.taken = c.taken) (count : r.rlbytes = n)
      (holds : cond)
  | ends
      (state : r.state = .newCmd ∨ (r.state = .mwrite ∧ r.closeAfterWrite = false) ∨
        r.state = .swallow)
      (rsize : r.rsize = c.rsize) (taken : r.taken = c.taken) (count : owed r = n ↔ cond)

theorem Dying.endsAt (dying : Dying c) (total : Nat) : EndsAt cfg c total := by
  intro es c' _ ran state
  obtain ⟨write, -⟩ | closing | closed := dying.run ran
  all_goals simp_all only [reduceCtorEq]

theorem Leaves.congr {r : Conn} {p q : Prop} (leaves : Leaves c r n p) (same : p ↔ q) :
    Leaves c r n q := by
  rwa [propext same] at leaves

theorem Leaves.endsAt_iff {r : Conn} {cond : Prop} (leaves : Leaves c r n cond)
    (room : 0 < c.rsize) : EndsAt cfg r (c.taken + n) ↔ cond := by
  cases leaves with
  | closes dying holds => exact ⟨fun _ => holds, fun _ => dying.endsAt _⟩
  | reads state taken count holds =>
    refine ⟨fun _ => holds, fun _ es c' busy ran ended => ?_⟩
    have serving : Serving (c.taken + n) r := by
      refine .going (.inr (.inr (.inr state))) ?_
      simp only [owed, state, taken, count, Int.toNat_natCast]
    exact (serving.run busy ran).taken_eq ended
  | ends state rsize taken count =>
    have serving : Serving (c.taken + owed r) r := by
      refine .going ?_ (by rw [taken])
      obtain state | ⟨state, -⟩ | state := state
      · exact .inl state
      · exact .inr (.inl state)
      · exact .inr (.inr (.inl state))
    have reaches : Reaches cfg r := by
      obtain state | ⟨state, open_⟩ | state := state
      · exact .of_newCmd state
      · exact reaches_of_mwrite state open_
      · exact reaches_of_swallow state (rsize ▸ room)
    rw [← count]
    constructor
    · intro ends
      obtain ⟨es, c', busy, ran, state⟩ := reaches
      have wanted : c'.taken = c.taken + n := ends es c' busy ran state
      have taken := (serving.run busy ran).taken_eq state
      omega
    · intro same es c' busy ran ended
      rw [← same]
      exact (serving.run busy ran).taken_eq ended

theorem leaves_writeBinResponse (c : Conn) (n : Nat) : Leaves c (writeBinResponse c) n (n = 0) :=
  .ends (.inl rfl) rfl rfl (by simp only [owed, writeBinResponse, eq_comm])

theorem leaves_mwrite (open_ : c.closeAfterWrite = false) (n : Nat) :
    Leaves c { c with state := .mwrite } n (n = 0) :=
  .ends (.inr (.inl ⟨rfl, open_⟩)) rfl rfl (by simp only [owed, eq_comm])

theorem leaves_answer (open_ : c.closeAfterWrite = false) (n : Nat) :
    Leaves c (answer e c) n (n = 0) := by
  unfold answer
  split
  · exact leaves_mwrite open_ n
  · exact leaves_writeBinResponse c n

/-- An error with `m` bytes to be thrown away. -/
theorem leaves_writeBinError (open_ : c.closeAfterWrite = false) (bound : m < 2 ^ 32) (n : Nat) :
    Leaves c (writeBinError c (intOf m)) n (if m < 2 ^ 31 then m = n else n = 0) := by
  unfold writeBinError
  split
  · next pos =>
      have small : m < 2 ^ 31 := by
        by_contra large
        rw [intOf_of_le (Nat.not_lt.mp large) bound] at pos
        omega
      rw [if_pos small, intOf_of_lt small]
      exact .ends (.inr (.inr rfl)) rfl rfl (by simp only [owed, Int.toNat_natCast])
  · next none =>
      refine (leaves_mwrite open_ n).congr ?_
      split
      · next small =>
          rw [intOf_of_lt small] at none
          omega
      · rfl

/-- The same where bytes are thrown away in any case. -/
theorem leaves_swallow (bound : n < 2 ^ 32) (small : c.sbytes < 2 ^ 31) :
    Leaves c { writeBinError c (intOf n) with state := .swallow } n
      (n < 2 ^ 31 ∧ (n = 0 → c.sbytes ≤ 0)) := by
  unfold writeBinError
  split
  · next pos =>
      have fits : n < 2 ^ 31 := by
        by_contra large
        rw [intOf_of_le (Nat.not_lt.mp large) bound] at pos
        omega
      rw [intOf_of_lt fits] at pos ⊢
      refine .ends (.inr (.inr rfl)) rfl rfl ?_
      simp only [owed, Int.toNat_natCast, true_iff]
      exact ⟨fits, fun empty => by omega⟩
  · next none =>
      refine .ends (.inr (.inr rfl)) rfl rfl ?_
      simp only [owed]
      by_cases fits : n < 2 ^ 31
      · rw [intOf_of_lt fits] at none
        have empty : n = 0 := by omega
        simp only [empty, Int.toNat_eq_zero, true_implies]
        exact ⟨fun le => ⟨by decide, le⟩, fun both => both.2⟩
      · omega

theorem leaves_beginUpload (bound : n < 2 ^ 32) (small : c.sbytes < 2 ^ 31) (flags : Nat) :
    Leaves c (beginUpload cfg e h c flags (intOf n)) n
      (n < 2 ^ 31 ∧ (n = 0 → itemSizeOk cfg h.key flags 2 = false → c.sbytes ≤ 0)) := by
  by_cases ok : itemSizeOk cfg h.key flags (intOf (intOf n + 2)) = true
  · have fits : n < 2 ^ 31 := by
      by_contra large
      rw [itemSizeOk_of_le (Nat.not_lt.mp large) bound] at ok
      cases ok
    have holds : n < 2 ^ 31 ∧ (n = 0 → itemSizeOk cfg h.key flags 2 = false → c.sbytes ≤ 0) := by
      refine ⟨fits, fun empty tooLarge => ?_⟩
      rw [nbytes_of_empty empty, tooLarge] at ok
      cases ok
    have count : intOf n = n := intOf_of_lt fits
    cases made : itemAlloc cfg e h.key flags (intOf (intOf n + 2)) with
    | none =>
      have noRoom : beginUpload cfg e h c flags (intOf n) =
          { outOfMemory c with sbytes := intOf n, state := .swallow } := by
        rw [beginUpload, made]
        exact if_pos ok
      rw [noRoom, count]
      refine .ends (.inr (.inr rfl)) rfl rfl ?_
      simp only [owed, Int.toNat_natCast, true_iff]
      exact holds
    | some chunked =>
      have began : beginUpload cfg e h c flags (intOf n) =
          { c with rlbytes := intOf n, chunked, state := .nread } := by
        rw [beginUpload, made]
      rw [began, count]
      exact .reads rfl rfl rfl holds
  · have none : itemAlloc cfg e h.key flags (intOf (intOf n + 2)) = none := by
      simp [itemAlloc, ok]
    have refused : beginUpload cfg e h c flags (intOf n) =
        { writeBinError c (intOf n) with state := .swallow } := by
      rw [beginUpload, none]
      exact if_neg ok
    rw [refused]
    refine (leaves_swallow bound small).congr (and_congr_right fun _ => ?_)
    refine forall_congr' fun empty => ?_
    rw [nbytes_of_empty empty, Bool.not_eq_true] at ok
    exact ⟨fun holds _ => holds, fun holds => holds ok⟩

theorem leaves_processBinSaslAuth (open_ : c.closeAfterWrite = false)
    (small : c.sbytes < 2 ^ 31) (whole : h.key + h.ext ≤ h.body) (noExt : h.ext = 0) :
    Leaves c (processBinSaslAuth cfg e h c) h.rest
      (h.rest < 2 ^ 31 ∧ (h.rest = 0 → cfg.sasl = true →
        (maxSaslMechLen < h.key ∨ itemAlloc cfg e h.key 0 2 ≠ some false) → c.sbytes ≤ 0)) := by
  have vlen : (h.body : Int) - h.key = (h.rest : Int) := by
    unfold Header.rest
    omega
  have bound := rest_lt h
  unfold processBinSaslAuth
  rw [vlen]
  dsimp only
  by_cases sasl : cfg.sasl = true
  · rw [if_neg (not_not.mpr sasl)]
    simp only [sasl, true_implies]
    have refused (why : h.rest = 0 →
          maxSaslMechLen < h.key ∨ itemAlloc cfg e h.key 0 2 ≠ some false) :
        Leaves c { writeBinError c (intOf h.rest) with state := .swallow } h.rest
          (h.rest < 2 ^ 31 ∧ (h.rest = 0 →
            (maxSaslMechLen < h.key ∨ itemAlloc cfg e h.key 0 2 ≠ some false) →
              c.sbytes ≤ 0)) := by
      refine (leaves_swallow bound small).congr (and_congr_right fun _ => ?_)
      exact ⟨fun holds empty _ => holds empty, fun holds empty => holds empty (why empty)⟩
    split
    · next long => exact refused fun _ => .inl long
    · next short =>
        split
        · next none => exact refused fun empty => .inr (by
            rw [nbytes_of_empty empty] at none
            rw [none]
            nofun)
        · next large => exact refused fun empty => .inr (by
            rw [nbytes_of_empty empty] at large
            rw [large]
            nofun)
        · next got =>
            have fits : h.rest < 2 ^ 31 := by
              by_contra large
              have tooLarge : itemSizeOk cfg h.key 0 (intOf (intOf h.rest + 2)) = false :=
                itemSizeOk_of_le (Nat.not_lt.mp large) bound h.key 0
              simp [itemAlloc, tooLarge] at got
            have count : intOf h.rest = h.rest := intOf_of_lt fits
            refine .reads rfl rfl (by rw [count]) ⟨fits, fun empty why => ?_⟩
            rw [nbytes_of_empty empty] at got
            exact (why.elim short fun other => other got).elim
  · rw [if_pos sasl]
    refine (leaves_writeBinError open_ bound _).congr ?_
    split
    · next fits => exact ⟨fun _ => ⟨fits, fun _ on => absurd on sasl⟩, fun _ => rfl⟩
    · next large =>
        refine ⟨fun zero => absurd ?_ large, fun both => absurd both.1 large⟩
        rw [zero]
        decide

/-- A request that the connection is closed for. -/
def Refuses (cfg : Config) (e : Event) (h : Header) (c : Conn) : Prop :=
  e.respStart = false ∨ h.body < h.key + h.ext ∨
    (cfg.sasl = true ∧ authenticated c (command h.opcode) = false) ∨ keyMaxLength < h.key ∨
    ¬lengthsOk (command h.opcode) h.key h.ext h.body

/-- A request of which the rest of the body is used up. -/
def Frames (cfg : Config) (e : Event) (h : Header) (c : Conn) (flags : Nat) : Prop :=
  match command h.opcode with
  | .stat | .touch | .gat | .gatk => h.rest = 0
  | .unknown => h.key + h.ext = 0 ∧ h.body < 2 ^ 31
  | .set | .add | .replace =>
    h.rest < 2 ^ 31 ∧ (h.rest = 0 → itemSizeOk cfg h.key flags 2 = false → c.sbytes ≤ 0)
  | .append | .prepend =>
    h.rest < 2 ^ 31 ∧ (h.rest = 0 → itemSizeOk cfg h.key 0 2 = false → c.sbytes ≤ 0)
  | .saslAuth | .saslStep =>
    h.rest < 2 ^ 31 ∧ (h.rest = 0 → cfg.sasl = true →
      (maxSaslMechLen < h.key ∨ itemAlloc cfg e h.key 0 2 ≠ some false) → c.sbytes ≤ 0)
  | _ => True

/-- The commands of which the lengths are checked to the last byte. -/
theorem leaves_checked (open_ : c.closeAfterWrite = false) (none : h.rest = 0) :
    Leaves c (answer e c) h.rest True :=
  (leaves_answer open_ h.rest).congr (iff_true_intro none)

theorem leaves_unknown (open_ : c.closeAfterWrite = false) (whole : h.key + h.ext ≤ h.body)
    (short : h.key ≤ keyMaxLength) :
    Leaves c (writeBinError c (intOf h.body)) h.rest (h.key + h.ext = 0 ∧ h.body < 2 ^ 31) := by
  have ext : h.ext < 2 ^ 8 := h.extlen.toNat_lt
  refine (leaves_writeBinError open_ (body_lt h) _).congr ?_
  unfold Header.rest
  unfold keyMaxLength at short
  split
  · omega
  · omega

theorem leaves_serve (open_ : c.closeAfterWrite = false) (small : c.sbytes < 2 ^ 31)
    (whole : h.key + h.ext ≤ h.body) (short : h.key ≤ keyMaxLength)
    (ok : lengthsOk (command h.opcode) h.key h.ext h.body) :
    Leaves c (serve cfg e h c flags (command h.opcode)) h.rest (Frames cfg e h c flags) := by
  have bound := rest_lt h
  have rest : h.rest = h.body - (h.key + h.ext) := rfl
  unfold Frames
  cases cmd : command h.opcode with
  | set | add | replace =>
    simp only [serve, processBinUpdate]
    rw [vlen_eq whole]
    exact leaves_beginUpload bound small flags
  | append | prepend =>
    simp only [cmd, lengthsOk] at ok
    have vlen : (h.body : Int) - h.key = (h.rest : Int) := by omega
    simp only [serve, processBinAppendPrepend]
    rw [vlen]
    exact leaves_beginUpload bound small 0
  | saslAuth | saslStep =>
    simp only [cmd, lengthsOk] at ok
    exact leaves_processBinSaslAuth open_ small whole ok.1
  | stat | touch | gat | gatk => exact leaves_answer open_ h.rest
  | unknown => exact leaves_unknown open_ whole short
  | version =>
    simp only [cmd, lengthsOk] at ok
    exact (leaves_writeBinResponse c h.rest).congr (iff_true_intro (by omega))
  | noop =>
    simp only [cmd, lengthsOk] at ok
    exact (leaves_mwrite open_ h.rest).congr (iff_true_intro (by omega))
  | quit => exact .closes (.inl ⟨rfl, rfl⟩) trivial
  | saslListMechs =>
    simp only [cmd, lengthsOk] at ok
    have none : h.rest = 0 := by omega
    simp only [serve, binListSaslMechs]
    split
    · have zero : (h.body : Int) - h.key = (0 : Nat) := by omega
      rw [zero]
      refine (leaves_writeBinError open_ (by decide) h.rest).congr (iff_true_intro ?_)
      rw [if_pos (by decide), none]
    · exact leaves_checked open_ none
  | flush | get | getk | delete | increment | decrement =>
    simp only [cmd, lengthsOk] at ok
    exact leaves_checked open_ (by omega)

theorem dying_refused (c : Conn) : Dying { writeBinError c 0 with closeAfterWrite := true } :=
  .inl ⟨rfl, rfl⟩

/-- A request that is in the buffer as a whole, apart from its value. -/
structure Arrived (c : Conn) : Prop where
  state : c.state = .parseCmd
  magic : (Header.ofBytes c.rbuf).magic = magicReq
  front : (Header.ofBytes c.rbuf).front ≤ c.rbuf.length

/-- Such a request gets to `dispatch_bin_command`. -/
theorem tryReadCommandBinary_of_arrived (arrived : Arrived c) :
    tryReadCommandBinary cfg e c =
      if ¬e.respStart then { c with state := .closing }
      else dispatchBinCommand cfg e (Header.ofBytes c.rbuf)
        (takeFront c (Header.ofBytes c.rbuf).front) (requestFlags c.rbuf) := by
  obtain ⟨-, magic, front⟩ := arrived
  have header : headerSize ≤ c.rbuf.length := by
    unfold Header.front at front
    omega
  rw [tryReadCommandBinary, if_neg (Nat.not_lt.mpr header)]
  dsimp only
  rw [if_neg (not_not.mpr magic), if_neg (Nat.not_lt.mpr front)]

theorem dying_of_refuses (arrived : Arrived c) (refuses : Refuses cfg e (Header.ofBytes c.rbuf) c) :
    Dying (tryReadCommandBinary cfg e c) := by
  rw [tryReadCommandBinary_of_arrived arrived]
  generalize Header.ofBytes c.rbuf = h at refuses ⊢
  have same : authenticated (takeFront c h.front) (command h.opcode) =
      authenticated c (command h.opcode) := rfl
  split
  · exact .inr (.inl rfl)
  · next resp =>
      unfold dispatchBinCommand
      dsimp only
      split
      · exact dying_refused _
      · next whole =>
          split
          · exact dying_refused _
          · next auth =>
              split
              · exact dying_refused _
              · next short =>
                  refine if_neg ?_ ▸ dying_refused _
                  obtain noResp | long | ⟨sasl, noAuth⟩ | long | notOk := refuses
                  · exact absurd noResp (by simpa using resp)
                  · exact absurd (.inr long) whole
                  · refine absurd ⟨sasl, ?_⟩ auth
                    rw [same, noAuth]
                    exact Bool.false_ne_true
                  · exact absurd long short
                  · exact notOk

theorem leaves_of_not_refuses (arrived : Arrived c) (open_ : c.closeAfterWrite = false)
    (small : c.sbytes < 2 ^ 31) (accepts : ¬Refuses cfg e (Header.ofBytes c.rbuf) c) :
    Leaves (takeFront c (Header.ofBytes c.rbuf).front) (tryReadCommandBinary cfg e c)
      (Header.ofBytes c.rbuf).rest
      (Frames cfg e (Header.ofBytes c.rbuf) c (requestFlags c.rbuf)) := by
  rw [tryReadCommandBinary_of_arrived arrived]
  generalize Header.ofBytes c.rbuf = h at accepts ⊢
  simp only [Refuses, not_or, not_and, not_not] at accepts
  obtain ⟨resp, whole, auth, short, ok⟩ := accepts
  rw [if_neg (by simpa using resp), dispatchBinCommand]
  dsimp only
  rw [if_neg (by omega), if_neg ?_, if_neg short, if_pos ok]
  · exact leaves_serve (c := takeFront c h.front) open_ small (Nat.not_lt.mp whole)
      (Nat.not_lt.mp short) ok
  · rintro ⟨sasl, noAuth⟩
    rw [Bool.not_eq_true] at noAuth
    exact auth sasl noAuth

/-! ## Runs of a connection -/

/-- A connection that stays open, with numbers that an `int` can have. -/
structure Plain (c : Conn) : Prop where
  open_ : c.closeAfterWrite = false
  room : 0 < c.rsize
  sbytes : c.sbytes < 2 ^ 31
  rlbytes : c.rlbytes < 2 ^ 31

theorem Plain.writeBinError (plain : Plain c) (v : Int) : Plain (writeBinError c (intOf v)) := by
  unfold Binary.writeBinError
  split
  · exact { plain with sbytes := intOf_lt v }
  · exact { plain with }

theorem Plain.answer (plain : Plain c) : Plain (answer e c) := by
  unfold Binary.answer
  split
  · exact plain.writeBinError 0
  · exact { plain with }

theorem Plain.swallow_after (plain : Plain c) (v : Int) :
    Plain { Binary.writeBinError c (intOf v) with state := .swallow } :=
  let left := plain.writeBinError v
  ⟨left.open_, left.room, left.sbytes, left.rlbytes⟩

theorem Plain.beginUpload (plain : Plain c) (flags : Nat) (v : Int) :
    Plain (beginUpload cfg e h c flags (intOf v)) := by
  unfold Binary.beginUpload
  split
  · split
    · exact { plain with sbytes := intOf_lt v }
    · exact plain.swallow_after v
  · exact { plain with rlbytes := intOf_lt v }

theorem Plain.processBinSaslAuth (plain : Plain c) : Plain (processBinSaslAuth cfg e h c) := by
  unfold Binary.processBinSaslAuth
  dsimp only
  split
  · exact plain.writeBinError _
  split
  · exact plain.swallow_after _
  · split
    · exact plain.swallow_after _
    · exact plain.swallow_after _
    · exact { plain with rlbytes := intOf_lt _ }

/-- A connection stays as it is, or it is closed. -/
def Inv (c : Conn) : Prop := Plain c ∨ Dying c

theorem Plain.serve (plain : Plain c) (cmd : Command) : Inv (serve cfg e h c flags cmd) := by
  cases cmd with
  | quit => exact .inr (.inl ⟨rfl, rfl⟩)
  | set | add | replace => exact .inl (plain.beginUpload flags _)
  | append | prepend => exact .inl (plain.beginUpload 0 _)
  | saslAuth | saslStep => exact .inl plain.processBinSaslAuth
  | unknown => exact .inl (plain.writeBinError _)
  | version | noop => exact .inl { plain with }
  | saslListMechs =>
    unfold Binary.serve binListSaslMechs
    dsimp only
    split
    · exact .inl (plain.writeBinError _)
    · exact .inl plain.answer
  | flush | get | getk | delete | increment | decrement | stat | touch | gat | gatk =>
    exact .inl plain.answer

theorem Plain.tryReadCommandBinary (plain : Plain c) : Inv (tryReadCommandBinary cfg e c) := by
  have stays (state : ConnState) : Inv { c with state } := .inl { plain with }
  unfold Binary.tryReadCommandBinary dispatchBinCommand
  dsimp only
  split
  · exact stays .read
  split
  · exact stays .closing
  split
  · exact stays .read
  split
  · exact stays .closing
  split
  · exact .inr (dying_refused _)
  split
  · exact .inr (dying_refused _)
  split
  · exact .inr (dying_refused _)
  · split
    · exact Plain.serve (c := takeFront c _) { plain with } _
    · exact .inr (dying_refused _)

theorem Plain.nread (plain : Plain c) : Plain (nread e c) := by
  unfold Binary.nread
  dsimp only
  have rlbytes := plain.rlbytes
  split
  · exact plain.answer
  · split
    · exact { plain with }
    · split
      · exact ⟨plain.open_, plain.room, plain.rlbytes, plain.rlbytes⟩
      · exact ⟨plain.open_, plain.room, plain.sbytes, by dsimp only; omega⟩

theorem Plain.swallow (plain : Plain c) : Plain (swallow e c) := by
  unfold Binary.swallow
  dsimp only
  have sbytes := plain.sbytes
  split
  · exact { plain with }
  · split
    all_goals exact ⟨plain.open_, plain.room, by dsimp only; omega, plain.rlbytes⟩

theorem Inv.advance (inv : Inv c) : Inv (advance cfg e c) := by
  obtain plain | dying := inv
  · unfold Binary.advance
    split
    · exact .inl { plain with }
    · unfold read
      dsimp only
      split
      · exact .inl { plain with }
      · split
        · exact .inl plain
        · exact .inl { plain with }
    · exact plain.tryReadCommandBinary
    · exact .inl plain.nread
    · exact .inl plain.swallow
    · unfold mwrite
      split
      · exact .inl plain
      · exact .inl { plain with }
    · exact .inl { plain with }
    · exact .inl { plain with }
  · exact .inr dying.advance

theorem Inv.receive (inv : Inv c) (more : List UInt8) : Inv (c.receive more) := by
  obtain plain | dying := inv
  · exact .inl { plain with }
  · exact .inr dying

theorem Inv.run {es : List Event} (inv : Inv c) (ran : run (step cfg) c es = .ok c') : Inv c' := by
  induction es generalizing c with
  | nil =>
    cases ran
    exact inv
  | cons e es ih => exact ih (inv.receive e.more).advance ran

theorem Arrived.plain (arrived : Arrived c) (inv : Inv c) : Plain c := by
  obtain plain | ⟨state, -⟩ | state | state := inv
  · exact plain
  all_goals
    rw [arrived.state] at state
    cases state

/-- In every run of a connection, for every request that arrives and whatever happens
afterwards: whenever the request is over, the connection has taken its header and its body
and nothing else, exactly if it is closed or the request is one of which the rest of the
body is used up. -/
theorem framed_iff {c₀ : Conn} {es : List Event} (plain : Plain c₀)
    (reached : run (step cfg) c₀ es = .ok c) (arrived : Arrived c) (begun : step cfg c e = .ok c') :
    EndsAt cfg c' (c.taken + (headerSize + (Header.ofBytes c.rbuf).body)) ↔
      Refuses cfg e (Header.ofBytes c.rbuf) c ∨
        Frames cfg e (Header.ofBytes c.rbuf) c (requestFlags c.rbuf) := by
  have now : Plain c := arrived.plain (Inv.run (.inl plain) reached)
  have there : Arrived (c.receive e.more) := ⟨arrived.state, arrived.magic, arrived.front⟩
  have stepped : step cfg c e = .ok (tryReadCommandBinary cfg e (c.receive e.more)) := by
    rw [step, advance]
    simp only [there.state]
  rw [stepped] at begun
  obtain rfl := Except.ok.inj begun
  by_cases refuses : Refuses cfg e (Header.ofBytes c.rbuf) c
  · have dying : Dying (tryReadCommandBinary cfg e (c.receive e.more)) :=
      dying_of_refuses there refuses
    exact ⟨fun _ => .inl refuses, fun _ => dying.endsAt _⟩
  have leaves := leaves_of_not_refuses there now.open_ now.sbytes refuses
  have whole : ¬(Header.ofBytes c.rbuf).body <
      (Header.ofBytes c.rbuf).key + (Header.ofBytes c.rbuf).ext :=
    fun long => refuses (.inr (.inl long))
  have total : c.taken + (headerSize + (Header.ofBytes c.rbuf).body) =
      (takeFront c (Header.ofBytes c.rbuf).front).taken + (Header.ofBytes c.rbuf).rest := by
    simp only [takeFront, Header.front, Header.rest]
    omega
  rw [total, or_iff_right refuses]
  exact leaves.endsAt_iff now.room

/-- A new connection, in memory where an earlier one has left `sbytes`. -/
def Conn.new (sbytes : Int) : Conn where
  state := .newCmd
  rbuf := []
  rsize := 16384
  input := []
  rlbytes := 0
  sbytes := sbytes
  chunked := false
  authenticated := false
  closeAfterWrite := false
  taken := 0

/-- A header with an opcode and the lengths of the key, the extras and the body. -/
def header (opcode keylen extlen : UInt8) (bodylen : List UInt8) : List UInt8 :=
  [magicReq, opcode, 0, keylen, extlen, 0, 0, 0] ++ bodylen ++ List.replicate 12 0

def sampleConfig : Config := ⟨defaultSettings, false⟩

theorem framed_get :
    ∃ c c', run (step sampleConfig) (Conn.new 0)
        [{}, { more := header 0 1 0 [0, 0, 0, 1] ++ [107], k := 100 }] = .ok c ∧
      step sampleConfig c {} = .ok c' ∧
      (EndsAt sampleConfig c' (c.taken + (headerSize + (Header.ofBytes c.rbuf).body)) ↔
        Refuses sampleConfig {} (Header.ofBytes c.rbuf) c ∨
          Frames sampleConfig {} (Header.ofBytes c.rbuf) c (requestFlags c.rbuf)) := by
  have plain : Plain (Conn.new 0) := ⟨rfl, by decide, by decide, by decide⟩
  have reached : run (step sampleConfig) (Conn.new 0)
      [{}, { more := header 0 1 0 [0, 0, 0, 1] ++ [107], k := 100 }] = .ok _ := rfl
  refine ⟨_, _, reached, rfl, framed_iff plain reached ?_ rfl⟩
  exact ⟨by decide +kernel, by decide +kernel, by decide +kernel⟩

/-- A command that is not known, one that does not look at the rest of its body, and one with
a body that is too long for an `int`. In each case the connection looks for the next header
at a wrong place. -/
theorem next_header_missed :
    (∃ c, run (step sampleConfig) (Conn.new 0)
        [{}, { more := header 0x40 1 0 [0, 0, 0, 1] ++ [107, 0x80], k := 100 }, {}, {}, {}] =
          .ok c ∧
      c.state = .newCmd ∧ c.taken = 24 + 1 + 1) ∧
    (∃ c, run (step sampleConfig) (Conn.new 0)
        [{}, { more := header 0x10 0 0 [0, 0, 0, 1] ++ [0x80], k := 100 }, {}] = .ok c ∧
      c.state = .newCmd ∧ c.taken = 24) ∧
    ∃ c, run (step sampleConfig) (Conn.new 0)
        [{}, { more := header 0x01 1 8 [0x80, 0, 0, 9] ++ List.replicate 9 107, k := 100 },
          {}, {}] = .ok c ∧
      c.state = .newCmd ∧ c.taken = 24 + 9 := by
  refine ⟨⟨_, rfl, ?_, ?_⟩, ⟨_, rfl, ?_, ?_⟩, ⟨_, rfl, ?_, ?_⟩⟩
  all_goals decide +kernel

end Kvsev.Binary
