import Kvsev.Connection.Storage
import Mathlib.Data.List.TakeWhile

/-!
# Numbers in request lines

The flags, the expiry and the length of a storage command and the expiry of `touch` are
converted by `strtoul` and `strtol`, which have 64 bits where `long` has, and are then stored
in 32 bits. A number that is too large for 64 bits is refused. One that is too large for 32
bits only is not: what is used is its remainder. `strtoul` also takes negative numbers, and
`safe_strtoul` looks for the sign only if the result has its highest bit set.
-/

namespace Kvsev.Connection

open Server

def natural (digits : List UInt8) : Option Nat :=
  if digits ≠ [] ∧ digits.all isDigit then some (digitsValue digits) else none

/-- The number that a word of digits denotes, with or without a sign. -/
def numeral (word : List UInt8) : Option Int :=
  match word with
  | 45 :: digits => (natural digits).map fun v : Nat => -(v : Int)
  | 43 :: digits => (natural digits).map fun v : Nat => (v : Int)
  | digits => (natural digits).map fun v : Nat => (v : Int)

/-- The commands with numbers. -/
inductive Numeric where
  | update (comm : Nread)
  | touch
  deriving DecidableEq, Repr

/-- What `process_update_command` makes of the words before it allocates the item. -/
structure UpdateNumbers where
  flags : Nat
  exptime : Int
  vlen : Nat
  cas : Nat
  deriving DecidableEq, Repr

/-- The CAS id that only `cas` reads. -/
def updateCas (comm : Nread) (t : Tokens) : Option Nat :=
  if comm = .cas then safeUnsigned (t.word 5) else some 0

def updateNumbers (comm : Nread) (t : Tokens) : Option UpdateNumbers :=
  if keyMaxLength < (t.word 1).length then none
  else do
    let flags ← safeStrtoul (t.word 2)
    let exptime ← safeStrtol (t.word 3)
    let cas ← updateCas comm t
    let vlen ← validLength (t.word 4)
    return ⟨flags, exptime, vlen, cas⟩

/-- `process_touch_command`, with the text it gives to `out_string`. -/
def processTouchCommand (sup : Supply) (s : State) (t : Tokens) : String × State :=
  if keyMaxLength < (t.word 1).length then ("CLIENT_ERROR bad command line format", s)
  else
    match safeStrtol (t.word 2) with
    | none => ("CLIENT_ERROR invalid exptime argument", s)
    | some exptime =>
      match doItemGet s (t.word 1) true with
      | (none, s) => ("NOT_FOUND", s)
      | (some p, s) =>
        let exptime := realtime sup.started s.currentTime (exptimeToPositiveTime exptime)
        ("TOUCHED", doItemRemove (setExptime s p (some exptime)) p)

/-- A number was read from the word, and the item expires when `realtime` says for it. -/
def Expires (sup : Supply) (s : State) (word : List UInt8) (exptime : Int) (it : Item) : Prop :=
  safeStrtol word = some exptime ∧
    it.exptime = realtime sup.started s.currentTime (exptimeToPositiveTime exptime)

/-- The numbers that a command uses: those of the item that waits for its value, with the
length of that value, or of the item that was touched. A command that is answered with an
error uses none. -/
def Numeric.Uses (sup : Supply) (s : State) (t : Tokens) : Numeric → List Int → Prop
  | update comm, [flags, exptime, vlen] =>
    ∃ p l s', processUpdateCommand sup s comm t = (.upload (p, comm) l, s') ∧
      ((s'.heap p).flags : Int) = flags ∧ Expires sup s (t.word 3) exptime (s'.heap p) ∧
      (l : Int) = vlen
  | touch, [exptime] =>
    ∃ p s', processTouchCommand sup s t = ("TOUCHED", s') ∧ s.assoc (t.word 1) = some p ∧
      Expires sup s (t.word 2) exptime (s'.heap p)
  | _, _ => False

/-- The numbers that stand in the line, where all of them are decimal ones. -/
def Numeric.written (t : Tokens) : Numeric → Option (List Int)
  | update _ => do
    let flags ← numeral (t.word 2)
    let exptime ← numeral (t.word 3)
    let vlen ← numeral (t.word 4)
    return [flags, exptime, vlen]
  | touch => (numeral (t.word 2)).map fun e => [e]

/-! ## Ranges -/

/-- What `strtol` has a result for. -/
def InLong (n : Int) : Prop := -2 ^ 63 ≤ n ∧ n < 2 ^ 63

def InInt (n : Int) : Prop := -2 ^ 31 ≤ n ∧ n < 2 ^ 31

/-- What `safe_strtoul` takes. -/
def TakenUnsigned (n : Int) : Prop := 0 ≤ n ∧ n < 2 ^ 64 ∨ -2 ^ 64 < n ∧ n < -2 ^ 63

/-- A length, or something that is cut to one. -/
def TakenLength (n : Int) : Prop :=
  InLong n ∧ 0 ≤ n.bmod (2 ^ 32) ∧ n.bmod (2 ^ 32) ≤ (intMax : Int) - 2

/-- The command answers with an error, whatever the size of its numbers. -/
def Malformed (comm : Nread) (t : Tokens) : Prop :=
  keyMaxLength < (t.word 1).length ∨ comm = .cas ∧ safeUnsigned (t.word 5) = none

/-- There is an item for a value of this length. -/
def Room (sup : Supply) (s : State) (t : Tokens) (flags vlen : Nat) : Prop :=
  itemSizeOk s.settings (t.word 1).length flags (vlen + 2) = true ∧ (sup.alloc s t).isSome = true

/-- The numbers of the line have 32 bits, unless one of them is refused, the line is
malformed or there is no item. Whether there is room for one is asked for what is left of
the numbers. -/
def Numeric.Fits (sup : Supply) (s : State) (t : Tokens) : Numeric → List Int → Prop
  | update comm, [flags, exptime, vlen] =>
    Malformed comm t ∨ ¬TakenUnsigned flags ∨ ¬InLong exptime ∨ ¬TakenLength vlen ∨
      ¬Room sup s t (flags % 2 ^ 32).toNat (vlen.bmod (2 ^ 32)).toNat ∨
      (0 ≤ flags ∧ flags < 2 ^ 32) ∧ InInt exptime ∧ InInt vlen
  | touch, [exptime] =>
    keyMaxLength < (t.word 1).length ∨ ¬InLong exptime ∨ liveItem s (t.word 1) = none ∨
      InInt exptime
  | _, _ => False

/-! ## Conversions -/

theorem natural_eq_some {digits : List UInt8} {v : Nat} (found : natural digits = some v) :
    digits ≠ [] ∧ (∀ d ∈ digits, isDigit d = true) ∧ v = digitsValue digits := by
  unfold natural at found
  split at found
  · rename_i decimal
    cases found
    exact ⟨decimal.1, List.all_eq_true.mp decimal.2, rfl⟩
  · cases found

variable {word : List UInt8} {n : Int}

theorem scanNumber_of_numeral (decimal : numeral word = some n) :
    ∃ negative digits, scanNumber word = (negative, digits, []) ∧ digits ≠ [] ∧
      n = (if negative then -(digitsValue digits : Int) else digitsValue digits) ∧
      (45 ∈ word ↔ negative = true) := by
  have noSign {digits : List UInt8} (all : ∀ d ∈ digits, isDigit d = true) : 45 ∉ digits :=
    fun mem => absurd (all 45 mem) (by decide)
  unfold numeral at decimal
  split at decimal <;> rw [Option.map_eq_some_iff] at decimal <;>
    obtain ⟨v, found, rfl⟩ := decimal <;> obtain ⟨some_, all, rfl⟩ := natural_eq_some found
  · rename_i digits
    refine ⟨true, digits, ?_, some_, rfl, by simp⟩
    simp [scanNumber, show isSpace 45 = false from by decide,
      List.takeWhile_eq_self_iff.mpr all, List.dropWhile_eq_nil_iff.mpr all]
  · rename_i digits
    refine ⟨false, digits, ?_, some_, rfl, by simp [noSign all]⟩
    simp [scanNumber, show isSpace 43 = false from by decide,
      List.takeWhile_eq_self_iff.mpr all, List.dropWhile_eq_nil_iff.mpr all]
  refine ⟨false, _, ?_, some_, rfl, by simp [noSign all]⟩
  have scan := @scanNumber_digits _ [] some_ all nofun
  rwa [List.append_nil] at scan

theorem safeUnsigned_iff (decimal : numeral word = some n)
    {l : Nat} : safeUnsigned word = some l ↔ TakenUnsigned n ∧ (l : Int) = n % 2 ^ 64 := by
  obtain ⟨negative, digits, scan, some_, rfl, sign⟩ := scanNumber_of_numeral decimal
  simp only [safeUnsigned, scan, some_, false_or, endsNumber, if_true, sign, TakenUnsigned, u64]
  cases negative
  · simp only [Bool.false_eq_true, if_false, and_false]
    split
    · simp only [reduceCtorEq, false_iff]
      omega
    · simp only [Option.some.injEq]
      omega
  · simp only [if_true, and_true]
    split
    · simp only [reduceCtorEq, false_iff]
      omega
    · split
      · simp only [reduceCtorEq, false_iff]
        omega
      · simp only [Option.some.injEq]
        omega

theorem safeStrtoul_iff (decimal : numeral word = some n)
    {l : Nat} : safeStrtoul word = some l ↔ TakenUnsigned n ∧ (l : Int) = n % 2 ^ 32 := by
  simp only [safeStrtoul, Option.map_eq_some_iff, safeUnsigned_iff decimal]
  constructor
  · rintro ⟨wide, ⟨taken, eq⟩, rfl⟩
    exact ⟨taken, by omega⟩
  · rintro ⟨taken, eq⟩
    exact ⟨(n % 2 ^ 64).toNat, ⟨taken, by omega⟩, by omega⟩

theorem safeStrtol_iff (decimal : numeral word = some n)
    {l : Int} : safeStrtol word = some l ↔ InLong n ∧ l = n.bmod (2 ^ 32) := by
  obtain ⟨negative, digits, scan, some_, rfl, -⟩ := scanNumber_of_numeral decimal
  simp only [safeStrtol, scan, some_, false_or, endsNumber, if_true, InLong]
  generalize (if negative then -(digitsValue digits : Int) else digitsValue digits) = n
  split
  · simp only [reduceCtorEq, false_iff]
    omega
  simp only [Option.some.injEq]
  constructor
  · rintro rfl
    exact ⟨by omega, rfl⟩
  · rintro ⟨-, rfl⟩
    rfl

theorem validLength_iff (decimal : numeral word = some n)
    {l : Nat} : validLength word = some l ↔ TakenLength n ∧ (l : Int) = n.bmod (2 ^ 32) := by
  simp only [validLength, TakenLength]
  cases read : safeStrtol word with
  | none =>
    have outside : ¬InLong n := fun inside => by
      simpa [read] using (safeStrtol_iff decimal).mpr ⟨inside, rfl⟩
    simp [outside]
  | some vlen =>
    obtain ⟨inside, rfl⟩ := (safeStrtol_iff decimal).mp read
    simp only [inside, true_and]
    split
    · simp only [reduceCtorEq, false_iff]
      omega
    · simp only [Option.some.injEq]
      omega

theorem bmod_eq_self_iff (n : Int) : n.bmod (2 ^ 32) = n ↔ InInt n := by
  have low := Int.le_bmod (x := n) (m := 2 ^ 32) (by decide)
  have high := Int.bmod_lt (x := n) (m := 2 ^ 32) (by decide)
  constructor
  · intro same
    rw [same] at low high
    exact ⟨by omega, by omega⟩
  · rintro ⟨low, high⟩
    exact Int.bmod_eq_of_le (by omega) (by omega)

/-! ## Results -/

/-- A command goes on with an item of these numbers, or it is refused and nothing has
changed. -/
theorem processUpdateCommand_eq (sup : Supply) (s : State) (comm : Nread) (t : Tokens) :
    processUpdateCommand sup s comm t =
      match updateNumbers comm t with
      | none =>
        (.refused (Resp.outString (setNoreplyMaybe t)
          (text "CLIENT_ERROR bad command line format")), s)
      | some n =>
        match doItemAlloc s (t.word 1) n.flags
            (realtime sup.started s.currentTime (exptimeToPositiveTime n.exptime)) (n.vlen + 2)
            (sup.alloc s t) with
        | (some p, s) => (.upload (p, comm) n.vlen, s.modify p fun it => itemSetCas s it n.cas)
        | (none, s) =>
          (.swallow (Resp.outString (setNoreplyMaybe t)
            (text (noItemText s (t.word 1) n.flags n.vlen))) n.vlen,
            dropOnFailedAlloc s (t.word 1) comm) := by
  rw [processUpdateCommand, updateNumbers]
  by_cases long : keyMaxLength < (t.word 1).length
  · rw [if_pos long, if_pos long]
  rw [if_neg long, if_neg long]
  cases flags : safeStrtoul (t.word 2) with
  | none => rfl
  | some f =>
    cases exptime : safeStrtol (t.word 3) with
    | none => rfl
    | some e =>
      have cas_eq : (if comm = .cas then safeUnsigned (t.word 5) else some 0) = updateCas comm t :=
        rfl
      rw [cas_eq]
      cases updateCas comm t with
      | none => cases safeStrtol (t.word 4) <;> rfl
      | some c =>
        cases vlen : safeStrtol (t.word 4) with
        | none =>
          have refused : validLength (t.word 4) = none := by rw [validLength, vlen]
          rw [refused]
          rfl
        | some l => cases valid : validLength (t.word 4) <;> rfl

theorem updateNumbers_eq_some {comm : Nread} {t : Tokens} {n : UpdateNumbers} :
    updateNumbers comm t = some n ↔
      ¬keyMaxLength < (t.word 1).length ∧ safeStrtoul (t.word 2) = some n.flags ∧
      safeStrtol (t.word 3) = some n.exptime ∧ updateCas comm t = some n.cas ∧
      validLength (t.word 4) = some n.vlen := by
  obtain ⟨flags, exptime, vlen, cas⟩ := n
  rw [updateNumbers]
  by_cases long : keyMaxLength < (t.word 1).length
  · simp [long]
  simp only [if_neg long, Option.bind_eq_bind, Option.bind_eq_some_iff, Option.pure_def,
    Option.some.injEq, UpdateNumbers.mk.injEq]
  constructor
  · rintro ⟨_, readFlags, _, readExptime, _, readCas, _, readVlen, rfl, rfl, rfl, rfl⟩
    exact ⟨long, readFlags, readExptime, readCas, readVlen⟩
  · rintro ⟨-, readFlags, readExptime, readCas, readVlen⟩
    exact ⟨_, readFlags, _, readExptime, _, readCas, _, readVlen, rfl, rfl, rfl, rfl⟩

/-- Every number the command goes on with, in terms of the numbers in the line. -/
theorem updateNumbers_iff (comm : Nread) {t : Tokens} {flags exptime vlen : Int}
    (flags_eq : numeral (t.word 2) = some flags) (exptime_eq : numeral (t.word 3) = some exptime)
    (vlen_eq : numeral (t.word 4) = some vlen) (n : UpdateNumbers) :
    updateNumbers comm t = some n ↔
      ¬keyMaxLength < (t.word 1).length ∧
      (TakenUnsigned flags ∧ (n.flags : Int) = flags % 2 ^ 32) ∧
      (InLong exptime ∧ n.exptime = exptime.bmod (2 ^ 32)) ∧
      updateCas comm t = some n.cas ∧
      (TakenLength vlen ∧ (n.vlen : Int) = vlen.bmod (2 ^ 32)) := by
  rw [updateNumbers_eq_some, safeStrtoul_iff flags_eq, safeStrtol_iff exptime_eq,
    validLength_iff vlen_eq]

theorem malformed_iff {comm : Nread} {t : Tokens} :
    Malformed comm t ↔ keyMaxLength < (t.word 1).length ∨ updateCas comm t = none := by
  rw [Malformed, updateCas]
  by_cases cas : comm = .cas <;> simp [cas]

section

variable {sup : Supply} {s : State} {t : Tokens} {used : List Int}

/-- A storage command uses the numbers it has read if there is room for the item. -/
theorem uses_update_iff {comm : Nread} : (Numeric.update comm).Uses sup s t used ↔
    ∃ n, updateNumbers comm t = some n ∧ Room sup s t n.flags n.vlen ∧
      used = [(n.flags : Int), n.exptime, (n.vlen : Int)] := by
  constructor
  · intro uses
    rcases used with _ | ⟨f, _ | ⟨e, _ | ⟨v, _ | _⟩⟩⟩ <;> try exact uses.elim
    obtain ⟨p, l, s', ran, rfl, ⟨read, -⟩, rfl⟩ := uses
    rw [processUpdateCommand_eq] at ran
    cases numbers : updateNumbers comm t with
    | none => simp [numbers] at ran
    | some n =>
      rw [numbers] at ran
      dsimp only at ran
      split at ran
      · rename_i made
        cases ran
        obtain ⟨ok, left, given, rfl, rfl⟩ := doItemAlloc_made made
        have same := (updateNumbers_eq_some.mp numbers).2.2.1.symm.trans read
        refine ⟨n, rfl, ⟨ok, by simp [given]⟩, ?_⟩
        rw [Option.some.inj same]
        simp [newItem, itemSetCas_eq]
      · cases ran
  · rintro ⟨n, numbers, room, rfl⟩
    obtain ⟨p, s', made⟩ := doItemAlloc_of_room
      (realtime sup.started s.currentTime (exptimeToPositiveTime n.exptime)) room
    have read := (updateNumbers_eq_some.mp numbers).2.2.1
    refine ⟨p, n.vlen, _, by rw [processUpdateCommand_eq, numbers]; simp only [made]; rfl, ?_⟩
    obtain ⟨-, left, -, rfl, rfl⟩ := doItemAlloc_made made
    exact ⟨by simp [newItem, itemSetCas_eq], ⟨read, by simp [newItem, itemSetCas_eq]⟩, rfl⟩

/-- `touch` uses the number it has read if it finds an item. -/
theorem uses_touch_iff : Numeric.touch.Uses sup s t used ↔
    ∃ p e, ¬keyMaxLength < (t.word 1).length ∧ liveItem s (t.word 1) = some p ∧
      safeStrtol (t.word 2) = some e ∧ used = [e] := by
  constructor
  · intro uses
    rcases used with _ | ⟨e, _ | _⟩ <;> try exact uses.elim
    obtain ⟨-, s', ran, -, read, -⟩ := uses
    rw [processTouchCommand] at ran
    split at ran
    · simp at ran
    rename_i short
    rw [read] at ran
    cases live : liveItem s (t.word 1) with
    | some p => exact ⟨p, e, short, rfl, read, rfl⟩
    | none =>
      have missed := doItemGet_fst s (t.word 1) true
      rcases get : doItemGet s (t.word 1) true with ⟨found, s₁⟩
      rw [get, live] at missed
      cases missed
      simp [get] at ran
  · rintro ⟨p, e, short, live, read, rfl⟩
    obtain ⟨s₁, get, time, -⟩ := doItemGet_live live true
    refine ⟨p, _, by simp only [processTouchCommand, if_neg short, read, get]; rfl,
      (liveItem_eq_some.mp live).1, read, ?_⟩
    simp [doItemRemove, setExptime, time]

/-- Numbers are used as they are written exactly if they have 32 bits or the command is
answered with an error. -/
theorem uses_written_iff (cmd : Numeric) {numbers : List Int}
    (written : cmd.written t = some numbers) :
    (∀ used, cmd.Uses sup s t used → used = numbers) ↔ cmd.Fits sup s t numbers := by
  cases cmd with
  | touch =>
    obtain ⟨e, decimal, rfl⟩ := Option.map_eq_some_iff.mp written
    simp only [uses_touch_iff, safeStrtol_iff decimal, Numeric.Fits]
    constructor
    · intro exact_
      by_contra wrong
      push Not at wrong
      obtain ⟨short, inside, found, apart⟩ := wrong
      obtain ⟨p, live⟩ := Option.ne_none_iff_exists'.mp found
      have same := exact_ _ ⟨p, _, by omega, live, ⟨inside, rfl⟩, rfl⟩
      exact apart ((bmod_eq_self_iff e).mp (by simpa using same))
    · rintro fits _ ⟨p, _, short, live, ⟨inside, rfl⟩, rfl⟩
      have small := ((fits.resolve_left short).resolve_left (not_not_intro inside)).resolve_left
        (by simp [live])
      rw [(bmod_eq_self_iff e).mpr small]
  | update comm =>
    simp only [Numeric.written, Option.bind_eq_bind, Option.bind_eq_some_iff, Option.pure_def,
      Option.some.injEq] at written
    obtain ⟨f, flags_eq, e, exptime_eq, l, vlen_eq, rfl⟩ := written
    have taken := updateNumbers_iff comm flags_eq exptime_eq vlen_eq
    simp only [uses_update_iff, Numeric.Fits, malformed_iff]
    constructor
    · intro same
      by_contra wrong
      push Not at wrong
      obtain ⟨⟨short, cas⟩, takenF, takenE, takenL, room, apart⟩ := wrong
      obtain ⟨c, cas_eq⟩ := Option.ne_none_iff_exists'.mp cas
      have goesOn := (taken ⟨(f % 2 ^ 32).toNat, e.bmod (2 ^ 32), (l.bmod (2 ^ 32)).toNat, c⟩).mpr
        ⟨by omega, ⟨takenF, by simp only; omega⟩, ⟨takenE, rfl⟩, cas_eq, takenL,
          Int.toNat_of_nonneg takenL.2.1⟩
      have eqs := same _ ⟨_, goesOn, room, rfl⟩
      simp only [List.cons.injEq, and_true] at eqs
      obtain ⟨eqF, eqE, eqL⟩ := eqs
      rw [Int.toNat_of_nonneg takenL.2.1, bmod_eq_self_iff] at eqL
      exact apart ⟨by omega, by omega⟩ ((bmod_eq_self_iff e).mp eqE) eqL
    · rintro fits _ ⟨n, goesOn, room, rfl⟩
      obtain ⟨short, ⟨takenF, eqF⟩, ⟨takenE, eqE⟩, cas, takenL, eqL⟩ := (taken n).mp goesOn
      have wellFormed : ¬(keyMaxLength < (t.word 1).length ∨ updateCas comm t = none) := by
        simp [short, cas]
      rw [← eqF, ← eqL, Int.toNat_natCast, Int.toNat_natCast] at fits
      obtain ⟨small, inE, inL⟩ := (((((fits.resolve_left wellFormed).resolve_left
        (not_not_intro takenF)).resolve_left (not_not_intro takenE)).resolve_left
        (not_not_intro takenL))).resolve_left (not_not_intro room)
      rw [eqF, eqE, eqL, (bmod_eq_self_iff e).mpr inE, (bmod_eq_self_iff l).mpr inL,
        Int.emod_eq_of_lt small.1 small.2]

end

/-- There is always memory. -/
def ampleSupply : Supply where
  started := 0
  alloc := fun _ _ => some ⟨.replicate 32 0, 0, fun _ => 0⟩
  decode := id

/-- `set k 7 0 5` -/
theorem uses_written_small :
    let t := tokenizeCommand (text "set k 7 0 5")
    let s := State.init defaultSettings
    (Numeric.update .set).Uses ampleSupply s t [7, 0, 5] ∧
      ∀ used, (Numeric.update .set).Uses ampleSupply s t used → used = [7, 0, 5] :=
  ⟨uses_update_iff.mpr ⟨⟨7, 0, 5, 0⟩, by decide +kernel, ⟨by decide +kernel, rfl⟩, rfl⟩,
    (uses_written_iff (.update .set) (by decide +kernel)).mpr (by simp [Numeric.Fits, InInt])⟩

/-- `set k 0 0 4294967297` waits for a value of one byte. -/
theorem vlen_reduced :
    let t := tokenizeCommand (text "set k 0 0 4294967297")
    (Numeric.update .set).written t = some [0, 0, 4294967297] ∧
      (Numeric.update .set).Uses ampleSupply (State.init defaultSettings) t [0, 0, 1] :=
  ⟨by decide +kernel,
    uses_update_iff.mpr ⟨⟨0, 0, 1, 0⟩, by decide +kernel, ⟨by decide +kernel, rfl⟩, rfl⟩⟩

end Kvsev.Connection
