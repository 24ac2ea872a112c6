import Kvsev.Connection.Numbers
import Kvsev.Meta.Commands
import Kvsev.Meta.Visible

/-!
# `ms` and the classic storage commands

A storage command of either protocol reads its numbers, allocates an item, waits for the value
and hands the item to `complete_nread_ascii`. With the same arguments both do the same, except
where the allocation fails: `process_update_command` then drops the old item for a `set` only,
`process_mset_command` for every mode.
-/

namespace Kvsev.Meta

open Merkle Memory Server Connection

/-! ## Once the value is there -/

/-- What `complete_nread_ascii` needs from outside. -/
structure Completion where
  copy : CopyInput
  flat : Nat → UInt8
  treeAllocs : Nat → Alloc

/-- What `complete_nread_ascii` does to the store. Without a result the value does not end as it
should. -/
def storeNread (s : State) (p : ItemPtr) (comm : Nread) (setStale : Bool) (done : Completion) :
    Exec (Option StoreItemType × State) := do
  if endsLine (s.heap p).data then
    let (ret, s) := doStoreItem s p comm setStale done.copy
    let s ← macStep s p done.flat
    let (_, s) ← treeStep s p done.treeAllocs
    return (some ret, indexStep s p)
  else return (none, s)

/-- `complete_nread_ascii` without its answer. -/
def completeNread (s : State) (p : ItemPtr) (comm : Nread) (setStale : Bool) (done : Completion) :
    Exec (Option StoreItemType × State) := do
  let (ret, s) ← storeNread s p comm setStale done
  return (ret, doItemRemove s p)

/-- The answer of the classic commands. -/
def classicReply : Option StoreItemType → String
  | none => "CLIENT_ERROR bad data chunk"
  | some ret => storeReply ret

/-- The answer of `ms`, without what `_finalize_mset` puts behind it. -/
def msetReply (metaResponseOld : Bool) : Option StoreItemType → String
  | none => "CLIENT_ERROR bad data chunk"
  | some .stored => if metaResponseOld then "OK" else "HD"
  | some .exists => "EX"
  | some .notFound => "NF"
  | some .notStored => "NS"
  | some .tooLarge | some .noMemory => "SERVER_ERROR Unhandled storage type."

theorem completeNreadAscii_eq (s : State) (p : ItemPtr) (comm : Nread) (req : StoreRequest) :
    completeNreadAscii s p comm req =
      (completeNread s p comm req.setStale ⟨req.copy, req.flat, req.treeAllocs⟩).map
        fun (ret, s) => (classicReply ret, s) := by
  rw [completeNreadAscii, completeNread, storeNread]
  split
  · rcases doStoreItem s p comm req.setStale req.copy with ⟨ret, s₁⟩
    dsimp only
    cases macStep s₁ p req.flat with
    | error trap => rfl
    | ok s₂ =>
      cases ran : treeStep s₂ p req.treeAllocs with
      | error trap => simp [bind, Except.bind, ran, Except.map]
      | ok made => simp [bind, Except.bind, ran, Except.map, pure, Except.pure, classicReply]
  · rfl

theorem classicReply_eq_stored {ret : Option StoreItemType} :
    classicReply ret = "STORED" ↔ ret = some .stored := by
  rcases ret with _ | _ | _ | _ | _ | _ | _ <;> decide

theorem msetReply_eq_stored {metaResponseOld : Bool} {ret : Option StoreItemType} :
    msetReply metaResponseOld ret = msetReply metaResponseOld (some .stored) ↔
      ret = some .stored := by
  cases metaResponseOld <;> rcases ret with _ | _ | _ | _ | _ | _ | _ <;> decide

/-- A storage command whose value has come; nothing is stored where it was refused. -/
def finish (data : List UInt8) (done : Completion) :
    Begun (ItemPtr × Nread) × State → Exec (Option StoreItemType × State)
  | (.upload (p, comm) _, s) =>
    completeNread (s.modify p fun it => { it with data }) p comm false done
  | (.refused _, s) | (.swallow _ _, s) => .ok (none, s)

/-! ## The same operation -/

/-- What is shown of a key, with all of its item but the unique. -/
def shown (s : State) (key : Key) : Option Item :=
  (liveItem s key).map fun p => { s.heap p with cas := 0 }

/-- Stores that differ in nothing but uniques and in items that are not shown. -/
structure SameStore (s s' : State) : Prop where
  shown : ∀ key, shown s key = shown s' key
  rest : { s with heap := s'.heap, assoc := s'.assoc, casId := s'.casId } = s'

/-- Both crash, or both leave the same store and either both report that they stored the
value or none does. -/
def SameOutcome (metaResponseOld : Bool) :
    Exec (Option StoreItemType × State) → Exec (Option StoreItemType × State) → Prop
  | .ok (ret, s), .ok (ret', s') =>
    (classicReply ret = "STORED" ↔
      msetReply metaResponseOld ret' = msetReply metaResponseOld (some .stored)) ∧ SameStore s s'
  | .error trap, .error trap' => trap = trap'
  | _, _ => False

/-- The flags of `ms`, which follow the length. -/
def msetFlags (t : Tokens) : List (List UInt8) := t.words.drop 3

/-- The argument of a flag. One that is missing stands for zero. -/
def argument (c : UInt8) (tokens : List (List UInt8)) : List UInt8 :=
  ((flagOf c tokens).map List.tail).getD [48]

/-- The modes of `ms` for a command; without a mode it is `set`. -/
def modes : Nread → List UInt8
  | .set | .cas => [0, 83]
  | .add => [69]
  | .replace => [82]
  | .append => [65]
  | .prepend => [80]

/-- A line of `ms` with the arguments of a classic one and perhaps flags that ask for
something in the answer. The numbers need not be acceptable. -/
structure SameArguments (sup : Supply) (s : State) (comm : Nread) (t ms : Tokens) : Prop where
  key : ms.word 1 = t.word 1
  flags : safeStrtoul (argument 70 (msetFlags ms)) = safeStrtoul (t.word 2)
  exptime : safeStrtol (argument 84 (msetFlags ms)) = safeStrtol (t.word 3)
  vlen : validLength (ms.word 2) = validLength (t.word 4)
  unique : (flagOf 67 (msetFlags ms)).map (fun token => safeUnsigned token.tail) =
    if comm = .cas then some (safeUnsigned (t.word 5)) else none
  mode : ((flagOf 77 (msetFlags ms)).map fun token => token.getD 1 0).getD 0 ∈ modes comm
  words : 3 < ms.ntokens ∧ ms.ntokens ≤ mflagMaxOptLength
  distinct : ((msetFlags ms).map letter).Nodup
  known : ∀ token ∈ msetFlags ms, letter token < 127 ∧
    (letter token ∈ [70, 84, 67] ∨ flagOk sup (ms.word 1) token = true)
  plain : ∀ token ∈ msetFlags ms, letter token ∉ [98, 73, 78] ∧ opaqueTooLong token = false
  alloc : sup.alloc s ms = sup.alloc s t

variable {sup : Supply} {s s' : State} {comm : Nread} {t ms : Tokens} {key : Key}
variable {tokens : List (List UInt8)} {token : List UInt8} {p : ItemPtr}

theorem SameStore.refl (s : State) : SameStore s s := ⟨fun _ => rfl, rfl⟩

theorem argument_of_mem {c : UInt8} (distinct : (tokens.map letter).Nodup)
    (mem : token ∈ tokens) (here : letter token = c) : argument c tokens = token.tail := by
  rw [argument, flagOf_of_mem distinct mem here]
  rfl

/-- A flag whose argument has to be a number. -/
theorem isSome_argument {α : Type} {read : List UInt8 → Option α} (c : UInt8)
    (zero : (read [48]).isSome = true)
    (ok : ∀ token ∈ tokens, letter token = c → (read token.tail).isSome = true) :
    (read (argument c tokens)).isSome = true := by
  rw [argument]
  cases found : flagOf c tokens with
  | none => exact zero
  | some token =>
    obtain ⟨mem, here⟩ := flagOf_eq_some found
    exact ok token mem here

/-- The number of a flag, for a line whose flags are acceptable. -/
theorem getD_argument {α : Type} (read : List UInt8 → Option α) (c : UInt8) {zero : α}
    (default : read [48] = some zero) :
    ((flagOf c tokens).map fun token => (read token.tail).getD zero).getD zero =
      (read (argument c tokens)).getD zero := by
  rw [argument]
  cases flagOf c tokens with
  | none => simp [default]
  | some token => rfl

/-- The length stands before the flags. -/
theorem drop_two_eq (long : 3 < t.ntokens) : t.words.drop 2 = t.word 2 :: msetFlags t := by
  have long : 2 < t.words.length := Nat.lt_of_succ_lt_succ long
  rw [List.drop_eq_getElem_cons long, Tokens.word, List.getElem?_eq_getElem long]
  rfl

/-- The length is none of the flags that ask for something in the answer. -/
theorem letter_of_validLength {word : List UInt8} {vlen : Nat}
    (valid : validLength word = some vlen) :
    letter word ≠ 79 ∧ letter word ≠ 107 ∧ letter word ≠ 99 := by
  cases word with
  | nil => decide
  | cons c rest =>
    refine ⟨?_, ?_, ?_⟩
    all_goals
      rintro (rfl : c = _)
      cases valid

theorem opaqueTooLong_of_letter (other : letter token ≠ 79) : opaqueTooLong token = false := by
  cases token with
  | nil => rfl
  | cons c rest =>
    have other : c ≠ 79 := other
    simp [opaqueTooLong, other]

namespace SameArguments

variable (same : SameArguments sup s comm t ms)

include same

theorem updateCas_eq : updateCas comm t =
    ((flagOf 67 (msetFlags ms)).map fun token => safeUnsigned token.tail).getD (some 0) := by
  rw [same.unique, updateCas]
  split <;> rfl

theorem accepted_iff : Accepted sup (ms.word 1) [] (msetFlags ms) ↔
    (safeStrtoul (t.word 2)).isSome = true ∧ (safeStrtol (t.word 3)).isSome = true ∧
      (updateCas comm t).isSome = true := by
  rw [← same.flags, ← same.exptime, same.updateCas_eq]
  constructor
  · intro accepted
    have ok : ∀ {c : UInt8} {token}, c ≠ 0 → token ∈ msetFlags ms → letter token = c →
        flagOk sup (ms.word 1) (c :: token.tail) = true := by
      intro c token ne mem here
      rw [← eq_cons_of_letter ne here]
      exact accepted.ok token mem
    refine ⟨isSome_argument 70 (by decide) fun token mem here => ok (by decide) mem here,
      isSome_argument 84 (by decide) fun token mem here => ok (by decide) mem here, ?_⟩
    cases found : flagOf 67 (msetFlags ms) with
    | none => rfl
    | some token =>
      obtain ⟨mem, here⟩ := flagOf_eq_some found
      exact ok (by decide) mem here
  · rintro ⟨flags, exptime, cas⟩
    refine ⟨same.distinct, fun token mem => ⟨(same.known token mem).1, by simp⟩,
      fun token mem => ?_⟩
    rcases (same.known token mem).2 with number | ok
    · simp only [List.mem_cons, List.not_mem_nil, or_false] at number
      rcases number with here | here | here
      · rw [argument_of_mem same.distinct mem here] at flags
        rw [eq_cons_of_letter (by decide) here]
        exact flags
      · rw [argument_of_mem same.distinct mem here] at exptime
        rw [eq_cons_of_letter (by decide) here]
        exact exptime
      · rw [flagOf_of_mem same.distinct mem here] at cas
        rw [eq_cons_of_letter (by decide) here]
        exact cas
    · exact ok

theorem key_eq : lineKey sup (ms.word 1) (msetFlags ms) = t.word 1 := by
  have absent : flagOf 98 (msetFlags ms) = none := flagOf_eq_none.mpr fun token mem here =>
    (same.plain token mem).1 (here ▸ by simp)
  rw [lineKey, absent, ← same.key]
  rfl

theorem mode_eq {of : MetaFlags} (hasCas : of.hasCas = (flagOf 67 (msetFlags ms)).isSome)
    (mode : of.mode = ((flagOf 77 (msetFlags ms)).map fun token => token.getD 1 0).getD 0) :
    msetMode of = some comm := by
  have cas : of.hasCas = decide (comm = .cas) := by
    have unique := congrArg Option.isSome same.unique
    rw [Option.isSome_map] at unique
    rw [hasCas, unique]
    split <;> simp [*]
  have known := same.mode
  rw [← mode] at known
  cases comm <;>
    simp only [modes, List.mem_cons, List.not_mem_nil, or_false] at known <;>
    simp [msetMode, cas, known]

/-- What `ms` goes on with, once its flags are accepted. -/
theorem preparse {n : UpdateNumbers} (numbers : updateNumbers comm t = some n) :
    ∃ q : Preparse, metaFlagPreparse sup s.currentTime (ms.words.drop 3) []
        ⟨{}, "CLIENT_ERROR bad command line format", ms.word 1⟩ = .ok q ∧
      q.key = t.word 1 ∧ msetMode q.flags = some comm ∧
      q.flags.clientFlags = n.flags ∧ q.flags.reqCasId = n.cas ∧
      q.flags.exptime = realtime sup.started s.currentTime (exptimeToPositiveTime n.exptime) := by
  obtain ⟨-, flags, exptime, cas, -⟩ := updateNumbers_eq_some.mp numbers
  have accepted := same.accepted_iff.mpr ⟨by simp [flags], by simp [exptime], by simp [cas]⟩
  have start : ({} : MetaFlags).hasError = false := rfl
  have noCas : ({} : MetaFlags).hasCas = false ∧ ({} : MetaFlags).reqCasId = 0 := ⟨rfl, rfl⟩
  have noTtl : ({} : MetaFlags).newTtl = false ∧ ({} : MetaFlags).exptime = 0 := ⟨rfl, rfl⟩
  obtain ⟨hasCas, reqCasId⟩ := linePreparse_cas accepted s.currentTime noCas
  refine ⟨_, preparse_of_accepted accepted _ start, ?_, ?_, ?_, ?_, ?_⟩
  · rw [linePreparse_key accepted, same.key_eq]
  · exact same.mode_eq hasCas (linePreparse_mode accepted _ rfl)
  · rw [linePreparse_clientFlags accepted _ rfl, getD_argument safeStrtoul 70 (by decide),
      same.flags, flags]
    rfl
  · rw [same.updateCas_eq] at cas
    rw [reqCasId]
    cases found : flagOf 67 (msetFlags ms) with
    | none => simpa [found] using cas
    | some token => simp_all
  · rw [(linePreparse_ttl accepted s.currentTime noTtl).2, lineTtl]
    have number := same.exptime.trans exptime
    rw [argument] at number
    cases found : flagOf 84 (msetFlags ms) with
    | none =>
      rw [found] at number
      have zero : safeStrtol [48] = some 0 := by decide
      rw [← Option.some.inj (zero.symm.trans number)]
      rfl
    | some token =>
      rw [found] at number
      change numberTime sup s.currentTime token = _
      rw [numberTime, show safeStrtol token.tail = some n.exptime from number]
      rfl

/-- A line of `ms` whose numbers are not acceptable leaves the store alone. -/
theorem mset_refused (bad : updateNumbers comm t = none) (data : List UInt8) (done : Completion) :
    finish data done (processMsetCommand sup s ms) = .ok (none, s) := by
  rw [processMsetCommand, if_neg (by have := same.words.1; omega)]
  split
  · rfl
  rename_i short
  rw [if_neg (by have := same.words.1; omega), if_neg (Nat.not_lt.mpr same.words.2), same.vlen]
  cases vlen : validLength (t.word 4) with
  | none => rfl
  | some l =>
    have refused : ¬Accepted sup (ms.word 1) [] (msetFlags ms) := by
      rw [same.accepted_iff]
      rintro ⟨flags, exptime, cas⟩
      obtain ⟨f, flags⟩ := Option.isSome_iff_exists.mp flags
      obtain ⟨e, exptime⟩ := Option.isSome_iff_exists.mp exptime
      obtain ⟨c, cas⟩ := Option.isSome_iff_exists.mp cas
      rw [same.key] at short
      have numbers : updateNumbers comm t = some ⟨f, e, l, c⟩ :=
        updateNumbers_eq_some.mpr ⟨short, flags, exptime, cas, vlen⟩
      rw [bad] at numbers
      cases numbers
    have failed : ∃ errstr, metaFlagPreparse sup s.currentTime (ms.words.drop 3) []
        ⟨{}, "CLIENT_ERROR bad command line format", ms.word 1⟩ = .error errstr := by
      cases ran : metaFlagPreparse sup s.currentTime (ms.words.drop 3) []
          ⟨{}, "CLIENT_ERROR bad command line format", ms.word 1⟩ with
      | error errstr => exact ⟨errstr, rfl⟩
      | ok q => exact absurd (metaFlagPreparse_iff.mp ran).2.1 refused
    obtain ⟨errstr, failed⟩ := failed
    simp only [msetItem, failed, finish]

theorem opaque_short {vlen : Nat} (valid : validLength (t.word 4) = some vlen) :
    (ms.words.drop 2).any opaqueTooLong = false := by
  rw [← same.vlen] at valid
  have first := opaqueTooLong_of_letter (letter_of_validLength valid).1
  rw [drop_two_eq same.words.1, List.any_cons, first, Bool.false_or, List.any_eq_false]
  intro token mem
  rw [(same.plain token mem).2]
  exact Bool.false_ne_true

/-- A line of `ms` whose numbers are acceptable. -/
theorem mset_accepted {n : UpdateNumbers} (numbers : updateNumbers comm t = some n) :
    ∃ r, processMsetCommand sup s ms =
      match doItemAlloc s (t.word 1) n.flags
          (realtime sup.started s.currentTime (exptimeToPositiveTime n.exptime)) (n.vlen + 2)
          (sup.alloc s t) with
      | (some p, s) => (.upload (p, comm) n.vlen, s.modify p fun it => itemSetCas s it n.cas)
      | (none, s) => (.swallow r n.vlen, dropOnFailedAlloc s (t.word 1) .set) := by
  obtain ⟨short, -, -, -, vlen⟩ := updateNumbers_eq_some.mp numbers
  obtain ⟨q, ran, key, mode, clientFlags, reqCasId, exptime⟩ := same.preparse numbers
  rw [← same.key] at short
  rw [processMsetCommand, if_neg (by have := same.words.1; omega), if_neg short,
    if_neg (by have := same.words.1; omega), if_neg (Nat.not_lt.mpr same.words.2), same.vlen, vlen]
  simp only [msetItem, ran, mode, key, clientFlags, reqCasId, exptime,
    same.opaque_short vlen, same.alloc, Bool.false_eq_true, if_false]
  rcases doItemAlloc s (t.word 1) n.flags _ (n.vlen + 2) (sup.alloc s t) with ⟨_ | p, s⟩
  · exact ⟨_, rfl⟩
  · exact ⟨.outString false [], rfl⟩

end SameArguments

/-! ## Where the allocation fails -/

theorem SameOutcome.refl (metaResponseOld : Bool) (r : Exec (Option StoreItemType × State)) :
    SameOutcome metaResponseOld r r := by
  cases r with
  | error trap => exact rfl
  | ok result => exact ⟨classicReply_eq_stored.trans msetReply_eq_stored.symm, .refl _⟩

/-- Both commands give up if there is no memory, and differ in what they drop. -/
theorem SameArguments.finish_of_full (same : SameArguments sup s comm t ms) {n : UpdateNumbers}
    (numbers : updateNumbers comm t = some n)
    (full : ¬(itemSizeOk s.settings (t.word 1).length n.flags (n.vlen + 2) = true ∧
      (sup.alloc s t).isSome = true)) (data : List UInt8) (done : Completion) :
    finish data done (processUpdateCommand sup s comm t) =
        .ok (none, dropOnFailedAlloc s (t.word 1) comm) ∧
      finish data done (processMsetCommand sup s ms) =
        .ok (none, dropOnFailedAlloc s (t.word 1) .set) := by
  obtain ⟨r, ran⟩ := same.mset_accepted numbers
  rw [ran, processUpdateCommand_eq, numbers]
  simp only [doItemAlloc_of_full full]
  exact ⟨rfl, rfl⟩

theorem SameStore.unlinked (table : WellLinked s) (here : s.assoc key = some p)
    (missed : liveItem s key = none) {heap : ItemPtr → Item}
    (others : ∀ q, q ≠ p → heap q = s.heap q) :
    SameStore s { s with heap, assoc := Function.update s.assoc key none } := by
  refine ⟨fun other => ?_, rfl⟩
  have dead : ∀ it, itemIsDead { s with heap, assoc := Function.update s.assoc key none } it =
      itemIsDead s it := fun _ => rfl
  rw [Meta.shown, Meta.shown]
  by_cases same : other = key
  · rw [same, missed, liveItem]
    simp
  simp only [liveItem, Function.update_of_ne same]
  cases found : s.assoc other with
  | none => rfl
  | some q =>
    have ne : q ≠ p := by
      rintro rfl
      exact same ((table.key other q found).symm.trans (table.key key q here))
    simp only [others q ne, dead]
    split
    · rfl
    · simp [others q ne]

/-- Without an item that is shown there is nothing to drop. -/
theorem sameStore_of_missed (table : WellLinked s) (missed : liveItem s key = none) :
    SameStore s (dropOnFailedAlloc s key .set) := by
  have gone : dropOnFailedAlloc s key .set = (doItemGet s key false).2 := by
    rw [dropOnFailedAlloc, if_pos rfl]
    obtain ⟨heap, assoc, ran⟩ := doItemGet_of_missed missed false
    rw [ran]
  rw [gone, doItemGet]
  cases here : s.assoc key with
  | none => exact .refl s
  | some p =>
    have dead : itemIsDead s (s.heap p) = true := by
      by_contra alive
      have live := liveItem_eq_some.mpr ⟨here, Bool.eq_false_iff.mpr alive⟩
      rw [missed] at live
      cases live
    dsimp only
    rw [if_pos dead]
    have linked : ((refcountIncr s p).heap p).linked = true := by
      rw [refcountIncr, State.modify_heap_self]
      exact table.linked key p here
    have key_eq : ((refcountIncr s p).heap p).key = key := by
      rw [refcountIncr, State.modify_heap_self]
      exact table.key key p here
    rw [doItemUnlink, if_pos linked, key_eq]
    refine SameStore.unlinked table here missed fun q ne => ?_
    rw [refcountIncr]
    simp [doItemRemove, State.modify, ne]

theorem shown_dropOnFailedAlloc (table : WellLinked s) (live : liveItem s key = some p) :
    shown (dropOnFailedAlloc s key .set) key = none := by
  obtain ⟨here, alive⟩ := liveItem_eq_some.mp live
  have taken : doItemGet s key false = (some p, refcountIncr s p) := by
    rw [doItemGet, here]
    simp [alive]
  have table' := (Shrinks.refcountIncr s p).table table
  rw [dropOnFailedAlloc, if_pos rfl, taken]
  dsimp only
  rw [doItemUnlink, if_pos (table'.linked key p here), table'.key key p here, shown, liveItem]
  simp [doItemRemove, State.modify]

/-- With the same arguments `ms` does what the classic command does exactly if the line is
refused, there is memory for the item, the command is `set` or the key has no item. -/
theorem sameOutcome_iff (table : WellLinked s) (same : SameArguments sup s comm t ms)
    (metaResponseOld : Bool) (data : List UInt8) (done : Completion) :
    SameOutcome metaResponseOld (finish data done (processUpdateCommand sup s comm t))
        (finish data done (processMsetCommand sup s ms)) ↔
      ∀ n, updateNumbers comm t = some n →
        (itemSizeOk s.settings (t.word 1).length n.flags (n.vlen + 2) = true ∧
          (sup.alloc s t).isSome = true) ∨ comm = .set ∨ liveItem s (t.word 1) = none := by
  cases numbers : updateNumbers comm t with
  | none =>
    rw [same.mset_refused numbers, processUpdateCommand_eq, numbers]
    exact iff_of_true (SameOutcome.refl metaResponseOld (.ok (none, s))) (by simp)
  | some n =>
    simp only [Option.some.injEq, forall_eq']
    by_cases room : itemSizeOk s.settings (t.word 1).length n.flags (n.vlen + 2) = true ∧
        (sup.alloc s t).isSome = true
    · obtain ⟨r, ran⟩ := same.mset_accepted numbers
      obtain ⟨p, s', given⟩ := doItemAlloc_of_room
        (realtime sup.started s.currentTime (exptimeToPositiveTime n.exptime)) room
      rw [ran, processUpdateCommand_eq, numbers]
      simp only [given]
      exact iff_of_true (.refl metaResponseOld _) (.inl room)
    obtain ⟨classic, mset⟩ := same.finish_of_full numbers room data done
    rw [classic, mset, or_iff_right room]
    constructor
    · rintro ⟨-, store⟩
      by_contra! wrong
      obtain ⟨notSet, live⟩ := wrong
      obtain ⟨p, live⟩ := Option.ne_none_iff_exists'.mp live
      have kept := store.shown (t.word 1)
      rw [shown_dropOnFailedAlloc table live, dropOnFailedAlloc, if_neg notSet, shown, live] at kept
      cases kept
    · rintro (rfl | missed)
      · exact .refl metaResponseOld (.ok _)
      · refine ⟨classicReply_eq_stored.trans msetReply_eq_stored.symm, ?_⟩
        by_cases drops : comm = .set
        · rw [drops]
          exact .refl _
        · rw [show dropOnFailedAlloc s (t.word 1) comm = s from if_neg drops]
          exact sameStore_of_missed table missed

/-- `set k 5 0 1` and `ms k 1 F5 c`, in an empty store with enough memory. -/
theorem sameOutcome_set :
    let sup : Supply := ⟨0, fun _ _ => some ⟨Vector.replicate 32 0, 0, fun _ => 0⟩, id⟩
    let s := State.init defaultSettings
    let t := tokenizeCommand (text "set k 5 0 1")
    let ms := tokenizeCommand (text "ms k 1 F5 c")
    let done : Completion := ⟨⟨none, false, fun _ => 0⟩, fun _ => 0, fun _ => none⟩
    SameArguments sup s .set t ms ∧
      SameOutcome false (finish [49, 13, 10] done (processUpdateCommand sup s .set t))
        (finish [49, 13, 10] done (processMsetCommand sup s ms)) := by
  intro sup s t ms done
  have same : SameArguments sup s .set t ms :=
    ⟨by decide +kernel, by decide +kernel, by decide +kernel, by decide +kernel,
      by decide +kernel, by decide +kernel, by decide +kernel, by decide +kernel,
      by decide +kernel, by decide +kernel, rfl⟩
  have table : WellLinked s := .init defaultSettings
  clear_value sup s t ms done
  exact ⟨same, (sameOutcome_iff table same false [49, 13, 10] done).mpr
    fun _ _ => .inr (.inl rfl)⟩

/-- `add k 0 0 1` and `ms k 1 ME` without memory, where there is an item. -/
theorem failed_add_drops : let sup : Supply := ⟨0, fun _ _ => none, id⟩
    let s := single
      { noItem with key := [107], linked := true, refcount := 1, data := [49, 13, 10] }
    let t := tokenizeCommand (text "add k 0 0 1")
    let ms := tokenizeCommand (text "ms k 1 ME")
    SameArguments sup s .add t ms ∧
      (shown (processUpdateCommand sup s .add t).2 [107]).map Item.data = some [49, 13, 10] ∧
      shown (processMsetCommand sup s ms).2 [107] = none ∧
      ∀ data done, ¬SameOutcome false (finish data done (processUpdateCommand sup s .add t))
        (finish data done (processMsetCommand sup s ms)) := by
  intro sup s t ms
  have same : SameArguments sup s .add t ms :=
    ⟨by decide +kernel, by decide +kernel, by decide +kernel, by decide +kernel,
      by decide +kernel, by decide +kernel, by decide +kernel, by decide +kernel,
      by decide +kernel, by decide +kernel, rfl⟩
  have kept : (shown (processUpdateCommand sup s .add t).2 [107]).map Item.data =
      some [49, 13, 10] := by decide +kernel
  have dropped : (shown (processMsetCommand sup s ms).2 [107]).isNone = true := by decide +kernel
  have numbers : updateNumbers .add t = some ⟨0, 0, 1, 0⟩ := by decide +kernel
  have there : (shown (dropOnFailedAlloc s (t.word 1) .add) [107]).isSome = true := by
    decide +kernel
  have gone : (shown (dropOnFailedAlloc s (t.word 1) .set) [107]).isSome = false := by
    decide +kernel
  have full : ¬(itemSizeOk s.settings (t.word 1).length 0 3 = true ∧
      (sup.alloc s t).isSome = true) := by simp [sup]
  -- the store and the lines are as good as any other from here on
  clear_value sup s t ms
  refine ⟨same, kept, Option.isNone_iff_eq_none.mp dropped, fun data done outcome => ?_⟩
  obtain ⟨classic, mset⟩ := same.finish_of_full numbers full data done
  rw [classic, mset] at outcome
  rw [outcome.2.shown, gone] at there
  cases there

end Kvsev.Meta
