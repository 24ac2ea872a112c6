import Kvsev.Meta.Commands
import Kvsev.Meta.Visible

/-!
# The time to live in answers to `mg`

After `t` stands the difference of the item's expiry and the time, as an unsigned number. An
item that is found has not expired, so the difference is as it should be, unless a flag before
`t` has given the item a new expiry: that may be in the past, and then the difference wraps
around.
-/

namespace Kvsev.Meta

open Server Connection

/-- The flag that has set the item's expiry when `t` is answered: the last one before it that
does so. -/
def inForce (created : Bool) : Option (List UInt8) → List (List UInt8) → Option (List UInt8)
  | last, [] => last
  | last, token :: tokens =>
    if letter token = 116 then last
    else if letter token = 84 ∨ created = true ∧ letter token = 78 then
      inForce created (some token) tokens
    else inForce created last tokens

/-- The expiry that a flag sets, or the one that was stored. -/
def expiryOf (sup : Supply) (now stored : Nat) (setter : Option (List UInt8)) : Nat :=
  (setter.map (numberTime sup now)).getD stored

/-- The number after `t` is right: it is `-1` for an item that does not expire, and otherwise
the seconds that remain. -/
def Remaining (now expiry : Nat) : Option Nat → Prop
  | none => expiry = 0
  | some seconds => expiry ≠ 0 ∧ now + seconds = expiry

/-- A number that stands for a moment in the past. Negative ones do, and those that are too
large for an interval are taken as a date. -/
def Past (started now : Nat) (n : Int) : Prop :=
  n < 0 ∧ max 1 (realtimeMaxdelta + 1 - started) < now ∨
    (realtimeMaxdelta : Int) < n ∧ max 1 (n - started) < (now : Int)

theorem realtime_past_iff (started now : Nat) (n : Int) :
    Past started now n ↔
      realtime started now (exptimeToPositiveTime n) ≠ 0 ∧
        realtime started now (exptimeToPositiveTime n) < now := by
  rw [Past, realtime, exptimeToPositiveTime, realtimeMaxdelta]
  split <;> split <;> try split
  all_goals try split
  all_goals omega

/-- What is printed after `t`. -/
def printedTtl (now exptime : Nat) : Option Nat :=
  if exptime = 0 then none else some (u32Sub exptime now)

theorem remaining_iff {now expiry : Nat} (fits : expiry < now + 2 ^ 32) :
    Remaining now expiry (printedTtl now expiry) ↔ expiry = 0 ∨ now ≤ expiry := by
  unfold printedTtl
  split
  · simp [Remaining, *]
  rename_i set
  simp only [Remaining, u32Sub, set, false_or]
  constructor
  · omega
  · intro later
    exact ⟨set, by omega⟩

/-! ## The loop over the flags -/

/-- A plain flag answers no `t` and leaves the item alone. -/
theorem metaFields_plain {flag : MetaFlag} (isPlain : plain flag = true) (s : State)
    (created fetched : Bool) (it : Item) (won : Bool) (flags : List MetaFlag) :
    ∃ won' extra, (∀ r, MetaField.ttl r ∉ extra) ∧
      (metaFields s created fetched it won (flag :: flags)).2.2 =
        extra ++ (metaFields s created fetched it won' flags).2.2 := by
  cases flag with
  | newTtl _ | vivify _ | ttl => cases isPlain
  | recache _ | value | noUpdate | noReply => exact ⟨_, [], by simp, rfl⟩
  | size | cas | clientFlags | lastAccess | hit | key | opaqueToken _ =>
    exact ⟨won, [_], by simp, rfl⟩

variable {sup : Supply} {s : State} {created fetched : Bool} {of : MetaFlags} {now : Nat}
variable {stored : Nat} {tokens : List (List UInt8)} {r : Option Nat}

/-- Without `t` there is no answer to it. -/
theorem not_mem_fields (absent : ∀ token ∈ tokens, letter token ≠ 116) (it : Item) (won : Bool) :
    MetaField.ttl r ∉
      (metaFields s created fetched it won (tokens.filterMap (mgetFlag of))).2.2 := by
  induction tokens generalizing it won with
  | nil => simp [metaFields]
  | cons token tokens ih =>
    have rest := ih fun other mem => absent other (List.mem_cons_of_mem _ mem)
    have here := absent token List.mem_cons_self
    rcases mgetFlag_cases of token with ⟨ttl, -⟩ | ⟨-, flag⟩ | ⟨-, flag⟩ | ⟨-, isPlain⟩
    · exact absurd ttl here
    · rw [List.filterMap_cons_some flag]
      exact rest _ _
    · rw [List.filterMap_cons_some flag]
      cases created <;> exact rest _ _
    cases found : mgetFlag of token with
    | none =>
      rw [List.filterMap_cons_none found]
      exact rest _ _
    | some flag =>
      rw [List.filterMap_cons_some found]
      obtain ⟨won', extra, none, eq⟩ := metaFields_plain (isPlain flag found) s created fetched
        it won (tokens.filterMap (mgetFlag of))
      rw [eq, List.mem_append, not_or]
      exact ⟨none r, rest _ _⟩

/-- The answer to `t` is what remains of the expiry that is in force. -/
theorem ttl_of_mem_fields {last : Option (List UInt8)} {it : Item} {won : Bool}
    (numbers : ∀ token ∈ tokens, (letter token = 84 → of.exptime = numberTime sup now token) ∧
      (letter token = 78 → of.autovivExptime = numberTime sup now token))
    (nodup : (tokens.map letter).Nodup) (start : it.exptime = expiryOf sup now stored last)
    (mem : MetaField.ttl r ∈
      (metaFields s created fetched it won (tokens.filterMap (mgetFlag of))).2.2) :
    r = printedTtl s.currentTime (expiryOf sup now stored (inForce created last tokens)) := by
  induction tokens generalizing it won last with
  | nil => simp [metaFields] at mem
  | cons token tokens ih =>
    rw [List.map_cons, List.nodup_cons] at nodup
    have numbers' := fun other mem => numbers other (List.mem_cons_of_mem token mem)
    obtain ⟨newTtlNumber, vivifyNumber⟩ := numbers token List.mem_cons_self
    rw [inForce]
    rcases mgetFlag_cases of token with ⟨ttl, flag⟩ | ⟨newTtl, flag⟩ | ⟨vivify, flag⟩ |
      ⟨⟨notTtl, notNewTtl, notVivify⟩, isPlain⟩
    · -- The answer is printed now, and no second one follows.
      rw [List.filterMap_cons_some flag, metaFields] at mem
      rcases List.mem_cons.mp mem with same | mem
      · rw [if_pos ttl, ← start]
        exact MetaField.ttl.inj same
      · refine absurd mem (not_mem_fields (fun other mem same => nodup.1 ?_) _ _)
        rw [ttl, ← same]
        exact List.mem_map_of_mem mem
    · rw [List.filterMap_cons_some flag] at mem
      rw [newTtl, if_neg (by decide), if_pos (.inl rfl)]
      exact ih numbers' nodup.2 (newTtlNumber newTtl) mem
    · rw [List.filterMap_cons_some flag] at mem
      rw [vivify, if_neg (by decide)]
      cases created with
      | true =>
        rw [if_pos (.inr ⟨rfl, rfl⟩)]
        exact ih numbers' nodup.2 (vivifyNumber vivify) mem
      | false =>
        rw [if_neg (by decide)]
        exact ih numbers' nodup.2 start mem
    · rw [if_neg notTtl, if_neg (by simp [notNewTtl, notVivify])]
      cases found : mgetFlag of token with
      | none =>
        rw [List.filterMap_cons_none found] at mem
        exact ih numbers' nodup.2 start mem
      | some flag =>
        rw [List.filterMap_cons_some found] at mem
        obtain ⟨won', extra, none, eq⟩ := metaFields_plain (isPlain flag found) s created fetched
          it won (tokens.filterMap (mgetFlag of))
        rw [eq, List.mem_append] at mem
        exact ih numbers' nodup.2 start (mem.resolve_left (none r))

/-! ## The command -/

variable {t : Tokens} {input : MetaInput} {key : Key}

theorem fields_of_mgetAnswer {p : ItemPtr} {flags : List MetaFlag}
    (mem : MetaField.ttl r ∈ (mgetAnswer s p created flags input).1.fields) :
    MetaField.ttl r ∈ (metaFields s created input.fetched (s.heap p) false flags).2.2 := by
  rw [mgetAnswer] at mem
  split at mem
  · cases mem
  simp only [metaHit, List.mem_append] at mem
  rcases mem with ((mem | sent) | stale) | win
  · exact mem
  · split at sent <;> simp at sent
  · split at stale <;> simp at stale
  · split at win <;> simp at win

/-- The number after `t` in an answer, for a line that is accepted. -/
theorem ttl_of_mgetItem {tokens : List (List UInt8)}
    (numbers : ∀ token ∈ tokens,
      (letter token = 84 → of.exptime = numberTime sup s.currentTime token) ∧
      (letter token = 78 → of.autovivExptime = numberTime sup s.currentTime token))
    (nodup : (tokens.map letter).Nodup)
    (mem : MetaField.ttl r ∈
      (mgetItem s key (tokens.filterMap (mgetFlag of)) input).1.fields) :
    r = printedTtl s.currentTime
      (expiryOf sup s.currentTime (((liveItem s key).map fun p => (s.heap p).exptime).getD 0)
        (inForce (liveItem s key).isNone none tokens)) := by
  rw [mgetItem] at mem
  cases live : liveItem s key with
  | some p =>
    obtain ⟨s₁, found, same, time, -⟩ := doItemGet_of_hit live
      (input.bump && !((tokens.filterMap (mgetFlag of)).contains .noUpdate ||
        (tokens.filterMap (mgetFlag of)).any MetaFlag.locks))
    rw [found] at mem
    dsimp only at mem
    split at mem
    · cases mem
    · rw [← time] at numbers ⊢
      exact ttl_of_mem_fields numbers nodup (congrArg Face.exptime same)
        (fields_of_mgetAnswer mem)
  | none =>
    obtain ⟨heap, assoc, missed⟩ := doItemGet_of_missed live
      (input.bump && !((tokens.filterMap (mgetFlag of)).contains .noUpdate ||
        (tokens.filterMap (mgetFlag of)).any MetaFlag.locks))
    rw [missed] at mem
    dsimp only at mem
    split at mem
    · rcases ran : doItemAlloc { s with heap, assoc } key 0 0 2 input.alloc with ⟨found, s₂⟩
      rw [ran] at mem
      cases found with
      | none => cases mem
      | some p =>
        dsimp only at mem
        obtain ⟨_, left, _, _, _, fresh⟩ := doItemAlloc_some ran
        have sameTime : s₂.currentTime = s.currentTime := by rw [doItemAlloc_frame ran]
        rw [← sameTime] at numbers ⊢
        have start : ((doItemLink (s₂.modify p fun it => { it with data := [13, 10] }) p).heap
            p).exptime = expiryOf sup s₂.currentTime 0 none := by
          simp only [doItemLink, State.modify_heap_self, itemSetCas]
          split <;> simp [fresh, newItem, expiryOf]
        have printed := ttl_of_mem_fields numbers nodup start (fields_of_mgetAnswer mem)
        exact printed
    · cases mem

theorem safeStrtol_lt {word : List UInt8} {n : Int} (read : safeStrtol word = some n) :
    n < 2 ^ 31 := by
  simp only [safeStrtol, Option.ite_none_left_eq_some, Option.ite_none_right_eq_some,
    Option.some.injEq] at read
  obtain ⟨-, -, rfl⟩ := read
  exact Int.bmod_lt (by decide)

theorem numberTime_lt (sup : Supply) (now : Nat) (token : List UInt8) :
    numberTime sup now token < now + 2 ^ 32 := by
  have small : (safeStrtol token.tail).getD 0 < 2 ^ 31 := by
    cases read : safeStrtol token.tail with
    | none => decide
    | some n => exact safeStrtol_lt read
  rw [numberTime, realtime, exptimeToPositiveTime, realtimeMaxdelta]
  split <;> split <;> try split
  all_goals try split
  all_goals omega

/-- The expiry of the item of a key; a new one has none. -/
def storedExpiry (s : State) (key : Key) : Nat :=
  ((liveItem s key).map fun p => (s.heap p).exptime).getD 0

theorem storedExpiry_later (s : State) (key : Key) :
    storedExpiry s key = 0 ∨ s.currentTime ≤ storedExpiry s key := by
  rw [storedExpiry]
  cases live : liveItem s key with
  | none => exact .inl rfl
  | some p => exact (itemIsDead_eq_false.mp (liveItem_eq_some.mp live).2).2.imp id Nat.le_of_lt

/-- The number after `t` is right exactly if the flag that is in force does not stand for a
moment in the past. -/
theorem ttl_remaining_iff (fits : ∀ key p, s.assoc key = some p → (s.heap p).exptime < 2 ^ 32)
    (answered : MetaField.ttl r ∈ (processMgetCommand sup s t input).1.fields) :
    let key := lineKey sup (t.word 1) (flagTokens t)
    let setter := inForce (liveItem s key).isNone none (flagTokens t)
    Remaining s.currentTime (expiryOf sup s.currentTime (storedExpiry s key) setter) r ↔
      ∀ token, setter = some token →
        ¬Past sup.started s.currentTime ((safeStrtol token.tail).getD 0) := by
  intro key setter
  have printed : r =
      printedTtl s.currentTime (expiryOf sup s.currentTime (storedExpiry s key) setter) := by
    rw [processMgetCommand] at answered
    split at answered
    · cases answered
    split at answered
    · cases answered
    split at answered
    · cases answered
    split at answered
    · cases answered
    rename_i p ran
    obtain ⟨-, accepted, rfl⟩ := metaFlagPreparse_iff.mp ran
    have accepted : Accepted sup (t.word 1) [] (flagTokens t) := accepted
    have sameKey : ((flagTokens t).foldl (applyFlag sup s.currentTime)
        (preparseStart (t.word 1) {})).key = key := linePreparse_key accepted s.currentTime
    rw [sameKey] at answered
    exact ttl_of_mgetItem (fun token mem => linePreparse_number accepted s.currentTime mem)
      accepted.nodup answered
  rw [printed]
  cases inForce_eq : setter with
  | none =>
    have later := storedExpiry_later s key
    have small : storedExpiry s key < s.currentTime + 2 ^ 32 := by
      rw [storedExpiry]
      cases live : liveItem s key with
      | none => simp
      | some p => exact Nat.lt_add_left _ (fits key p (liveItem_eq_some.mp live).1)
    have right := (remaining_iff small).mpr later
    simpa [expiryOf] using right
  | some token =>
    rw [expiryOf, Option.map_some, Option.getD_some,
      remaining_iff (numberTime_lt sup s.currentTime token)]
    simp only [Option.some.injEq, forall_eq', realtime_past_iff]
    rw [numberTime]
    omega

/-- `mg k T300 t` right after the start, for an item that would expire at 100. -/
theorem ttl_remaining_stored : let sup : Supply := ⟨1700000000, fun _ _ => none, id⟩
    let s := single { noItem with key := [107], linked := true, refcount := 1, exptime := 100 }
    let t := tokenizeCommand (text "mg k T300 t")
    (processMgetCommand sup s t ⟨none, false, false⟩).1.fields = [.ttl (some 300)] ∧
      Remaining 62 362 (some 300) := by
  intro sup s t
  have fields : (processMgetCommand sup s t ⟨none, false, false⟩).1.fields = [.ttl (some 300)] := by
    decide +kernel
  have answered : MetaField.ttl (some 300) ∈
      (processMgetCommand sup s t ⟨none, false, false⟩).1.fields := by simp [fields]
  have fits : ∀ key p, s.assoc key = some p → (s.heap p).exptime < 2 ^ 32 :=
    fun _ _ _ => (by decide : 100 < 2 ^ 32)
  refine ⟨fields, (ttl_remaining_iff fits answered).mpr ?_⟩
  intro token found
  have set : inForce (liveItem s (lineKey sup (t.word 1) (flagTokens t))).isNone none
      (flagTokens t) = some (text "T300") := by decide +kernel
  cases set.symm.trans found
  have number : (safeStrtol (text "T300").tail).getD 0 = 300 := by decide +kernel
  rw [number, Past]
  decide

/-- `mg k T-1 t` gives the item an expiry in the past and answers that it lives for more than a
century. -/
theorem ttl_wraps : let sup : Supply := ⟨1700000000, fun _ _ => none, id⟩
    let s := single { noItem with key := [107], linked := true, refcount := 1, exptime := 100 }
    let after := processMgetCommand sup s (tokenizeCommand (text "mg k T-1 t")) ⟨none, false, false⟩
    after.1.fields = [.ttl (some 4294967235)] ∧ s.currentTime = 62 ∧
      (after.2.heap 0).exptime = 1 ∧ ¬Remaining 62 1 (some 4294967235) :=
  ⟨by decide +kernel, rfl, by decide +kernel, by simp [Remaining]⟩

end Kvsev.Meta
