import Kvsev.Connection.Storage
import Mathlib.Data.List.Nodup

/-!
# The flags of meta commands

`_meta_flag_preparse` reads the flags of a line one after the other. Each letter may stand
there once, and no two letters write the same field, so the order does not matter: a line is
accepted if every flag is acceptable on its own, and each field is what its own flag says.
-/

namespace Kvsev.Meta

open Server Connection

/-- The letter of a flag. -/
def letter (token : List UInt8) : UInt8 := token.head?.getD 0

/-- Whether a flag is known and has the argument it should have. -/
def flagOk (sup : Supply) (key : Key) (token : List UInt8) : Bool :=
  let rest := token.tail
  match token.head?.map fun c => Char.ofNat c.toNat with
  | some 'b' => sup.decode key ≠ []
  | some 'N' | some 'T' | some 'R' => (safeStrtol rest).isSome
  | some 'l' | some 'h' | some 'O' | some 'k' | some 's' | some 't' | some 'c' | some 'f'
  | some 'v' | some 'u' | some 'q' | some 'I' => true
  | some 'F' => (safeStrtoul rest).isSome
  | some 'C' | some 'J' | some 'D' => (safeUnsigned rest).isSome
  | some 'M' => token.length = 2
  | _ => false

/-- What a flag adds to what was found before it. -/
def applyFlag (sup : Supply) (now : Nat) (p : Preparse) (token : List UInt8) : Preparse :=
  match preparseFlag sup now p token with
  | .ok p => p
  | .error _ => p

/-- A line whose flags are all different and acceptable, and none of them was seen before. -/
structure Accepted (sup : Supply) (key : Key) (seen : List UInt8) (tokens : List (List UInt8)) :
    Prop where
  nodup : (tokens.map letter).Nodup
  fresh : ∀ token ∈ tokens, letter token < 127 ∧ letter token ∉ seen
  ok : ∀ token ∈ tokens, flagOk sup key token = true

/-- The fields that only one letter writes. -/
structure Frame (c : UInt8) (p q : Preparse) : Prop where
  key : c ≠ 98 → q.key = p.key ∧ q.flags.keyBinary = p.flags.keyBinary
  exptime : c ≠ 84 → q.flags.exptime = p.flags.exptime ∧ q.flags.newTtl = p.flags.newTtl
  vivify : c ≠ 78 → q.flags.autovivExptime = p.flags.autovivExptime ∧
    q.flags.vivify = p.flags.vivify
  clientFlags : c ≠ 70 → q.flags.clientFlags = p.flags.clientFlags
  cas : c ≠ 67 → q.flags.reqCasId = p.flags.reqCasId ∧ q.flags.hasCas = p.flags.hasCas
  mode : c ≠ 77 → q.flags.mode = p.flags.mode
  setStale : c ≠ 73 → q.flags.setStale = p.flags.setStale

variable {sup : Supply} {now : Nat} {p q : Preparse} {token : List UInt8} {key : Key}
variable {seen : List UInt8} {tokens : List (List UInt8)}

/-! ## One flag -/

theorem letter_eq_of_head {c : Char}
    (head : token.head?.map (fun c => Char.ofNat c.toNat) = some c) :
    letter token = c.toNat.toUInt8 := by
  obtain ⟨d, first, rfl⟩ := Option.map_eq_some_iff.mp head
  have small := d.toNat_lt
  have valid : d.toNat.isValidChar := Or.inl (by omega)
  have same : (Char.ofNat d.toNat).toNat = d.toNat := by
    rw [Char.ofNat, dif_pos valid]
    rfl
  rw [letter, first, same]
  simp

theorem applyFlag_frame (sup : Supply) (now : Nat) (p : Preparse) (token : List UInt8) :
    Frame (letter token) p (applyFlag sup now p token) := by
  unfold applyFlag preparseFlag
  split
  · rename_i q ran
    split at ran
    all_goals try rw [letter_eq_of_head (by assumption)]
    all_goals cases ran
    all_goals try simp only [Preparse.number, Preparse.fail]
    all_goals try split
    all_goals
      constructor <;>
        first | exact fun _ => ⟨rfl, rfl⟩ | exact fun _ => rfl | exact fun other => (other rfl).elim
  · constructor <;> first | exact fun _ => ⟨rfl, rfl⟩ | exact fun _ => rfl

/-- Only a flag that is not acceptable is an error, which may be found later. -/
structure Sound (ok : Bool) (p : Preparse) (result : Except String Preparse) : Prop where
  accepts : ok = true → ∃ q, result = .ok q ∧ q.flags.hasError = p.flags.hasError
  rejects : ok = false → ∀ q, result = .ok q → q.flags.hasError = true

theorem Sound.accept (same : q.flags.hasError = p.flags.hasError) : Sound true p (.ok q) :=
  ⟨fun _ => ⟨q, rfl, same⟩, fun absurd => Bool.noConfusion absurd⟩

theorem Sound.reject (errstr : String) : Sound false p (.ok (q.fail errstr)) :=
  ⟨fun absurd => Bool.noConfusion absurd, fun _ _ ran => by cases ran; rfl⟩

variable {α : Type}

theorem Sound.number (errstr : String) (value : Option α) {set : MetaFlags → α → MetaFlags}
    (same : ∀ v, (set q.flags v).hasError = p.flags.hasError) :
    Sound value.isSome p (.ok (q.number errstr value set)) := by
  cases value with
  | none => exact .reject errstr
  | some v => exact .accept (same v)

theorem Sound.base64 (key : Key) (errstr : String) (same : q.flags.hasError = p.flags.hasError) :
    Sound (key ≠ []) p (.ok (if key = [] then q.fail errstr else q)) := by
  by_cases empty : key = []
  · simpa [empty] using Sound.reject errstr
  · simpa [empty] using Sound.accept same

theorem Sound.mode (token : List UInt8) (errstr : String) :
    Sound (token.length = 2) p (.ok (match token with
      | [_, mode] => { p with flags := { p.flags with mode } }
      | _ => p.fail errstr)) := by
  split
  · exact .accept rfl
  rename_i shape
  have other : token.length ≠ 2 := by
    intro two
    obtain ⟨first, mode, rfl⟩ := List.length_eq_two.mp two
    exact shape first mode rfl
  simpa [other] using Sound.reject errstr

theorem preparseFlag_sound (sup : Supply) (now : Nat) (p : Preparse) (token : List UInt8) :
    Sound (flagOk sup p.key token) p (preparseFlag sup now p token) := by
  unfold preparseFlag
  split
  case h_22 =>
    rw [flagOk]
    split
    case h_22 => exact ⟨fun absurd => Bool.noConfusion absurd, fun _ _ ran => by cases ran⟩
    all_goals
      rename_i head
      simp [head] at *
  all_goals
    rename_i head
    rw [flagOk, head]
  all_goals
    first
    | exact .accept rfl
    | exact .number _ _ fun _ => rfl
    | exact .base64 _ _ rfl
    | exact .mode _ _

theorem applyFlag_of_ok (ran : preparseFlag sup now p token = .ok q) :
    applyFlag sup now p token = q := by
  rw [applyFlag, ran]

/-- Only base64 looks at the key. -/
theorem flagOk_key {key' : Key} (ne : letter token ≠ 98) :
    flagOk sup key token = flagOk sup key' token := by
  unfold flagOk
  split
  · rename_i head
    exact absurd (letter_eq_of_head head) ne
  all_goals rfl

/-! ## All flags -/

theorem accepted_nil : Accepted sup key seen [] := ⟨List.nodup_nil, by simp, by simp⟩

theorem accepted_cons : Accepted sup key seen (token :: tokens) ↔
    (letter token < 127 ∧ letter token ∉ seen) ∧ flagOk sup key token = true ∧
      Accepted sup key (letter token :: seen) tokens := by
  constructor
  · rintro ⟨nodup, fresh, ok⟩
    rw [List.map_cons, List.nodup_cons] at nodup
    refine ⟨fresh token List.mem_cons_self, ok token List.mem_cons_self, nodup.2, ?_, ?_⟩
    · intro other mem
      obtain ⟨low, new⟩ := fresh other (List.mem_cons_of_mem _ mem)
      refine ⟨low, List.not_mem_cons_of_ne_of_not_mem (fun same => nodup.1 ?_) new⟩
      exact same ▸ List.mem_map_of_mem mem
    · exact fun other mem => ok other (List.mem_cons_of_mem _ mem)
  · rintro ⟨first, ok, nodup, fresh, oks⟩
    refine ⟨?_, ?_, ?_⟩
    · rw [List.map_cons, List.nodup_cons]
      refine ⟨fun mem => ?_, nodup⟩
      obtain ⟨other, mem, same⟩ := List.mem_map.mp mem
      exact (fresh other mem).2 (same ▸ List.mem_cons_self)
    · rintro other (_ | ⟨_, mem⟩)
      · exact first
      · exact ⟨(fresh other mem).1, fun old => (fresh other mem).2 (List.mem_cons_of_mem _ old)⟩
    · rintro other (_ | ⟨_, mem⟩)
      · exact ok
      · exact oks other mem

/-- The flags that are accepted do not depend on a key that was decoded before. -/
theorem accepted_key {key' : Key} (same : key = key' ∨ 98 ∈ seen) :
    Accepted sup key seen tokens ↔ Accepted sup key' seen tokens := by
  rcases same with rfl | decoded
  · rfl
  have eq : ∀ token, letter token ∉ seen → flagOk sup key token = flagOk sup key' token :=
    fun token new => flagOk_key fun same => new (same ▸ decoded)
  constructor
  · rintro ⟨nodup, fresh, ok⟩
    exact ⟨nodup, fresh, fun token mem => eq token (fresh token mem).2 ▸ ok token mem⟩
  · rintro ⟨nodup, fresh, ok⟩
    exact ⟨nodup, fresh, fun token mem => (eq token (fresh token mem).2).symm ▸ ok token mem⟩

theorem metaFlagPreparse_iff : metaFlagPreparse sup now tokens seen p = .ok q ↔
    p.flags.hasError = false ∧ Accepted sup p.key seen tokens ∧
      q = tokens.foldl (applyFlag sup now) p := by
  induction tokens generalizing seen p with
  | nil =>
    rw [metaFlagPreparse]
    cases p.flags.hasError with
    | true => simp
    | false => simp [accepted_nil, eq_comm]
  | cons token tokens ih =>
    obtain ⟨accepts, rejects⟩ := preparseFlag_sound sup now p token
    rw [metaFlagPreparse, accepted_cons, List.foldl_cons]
    by_cases old : 127 ≤ token.head?.getD 0 ∨ token.head?.getD 0 ∈ seen
    · simp only [if_pos old, reduceCtorEq, false_iff]
      rintro ⟨-, ⟨⟨low, new⟩, -⟩, -⟩
      rcases old with high | old
      · exact absurd low (UInt8.not_lt.mpr high)
      · exact new old
    rw [if_neg old]
    have new : letter token < 127 ∧ letter token ∉ seen := by
      rw [not_or, UInt8.not_le] at old
      exact old
    have sameKey : (applyFlag sup now p token).key = p.key ∨ 98 ∈ letter token :: seen := by
      by_cases decodes : letter token = 98
      · exact .inr (decodes ▸ List.mem_cons_self)
      · exact .inl ((applyFlag_frame sup now p token).key decodes).1
    cases ok : flagOk sup p.key token with
    | true =>
      obtain ⟨p', ran, same⟩ := accepts ok
      rw [applyFlag_of_ok ran] at sameKey ⊢
      simp only [ran, bind, Except.bind, ih, same, new, not_false_eq_true, true_and, and_self]
      exact and_congr_right fun _ => and_congr_left fun _ => accepted_key sameKey
    | false =>
      cases ran : preparseFlag sup now p token with
      | error errstr => simp [bind, Except.bind]
      | ok p' => simp [bind, Except.bind, ih, rejects ok p' ran]

variable {c : UInt8}

/-- A field that no flag of the line writes. -/
theorem foldl_of_absent {get : Preparse → α}
    (keeps : ∀ p token, letter token ≠ c → get (applyFlag sup now p token) = get p)
    (absent : ∀ token ∈ tokens, letter token ≠ c) :
    get (tokens.foldl (applyFlag sup now) p) = get p := by
  induction tokens generalizing p with
  | nil => rfl
  | cons token tokens ih =>
    rw [List.foldl_cons, ih fun other mem => absent other (List.mem_cons_of_mem _ mem)]
    exact keeps p token (absent token List.mem_cons_self)

/-- A field that one flag of the line writes, which finds the key as it is in the line. -/
theorem foldl_of_mem {get : Preparse → α}
    (keeps : ∀ p token, letter token ≠ c → get (applyFlag sup now p token) = get p)
    (nodup : (tokens.map letter).Nodup) (mem : token ∈ tokens) (here : letter token = c) :
    ∃ p', get (tokens.foldl (applyFlag sup now) p) = get (applyFlag sup now p' token) ∧
      (letter token = 98 → p'.key = p.key) := by
  induction tokens generalizing p with
  | nil => cases mem
  | cons first tokens ih =>
    rw [List.map_cons, List.nodup_cons] at nodup
    rw [List.foldl_cons]
    rcases List.mem_cons.mp mem with rfl | mem
    · refine ⟨p, foldl_of_absent keeps fun other mem same => nodup.1 ?_, fun _ => rfl⟩
      rw [here, ← same]
      exact List.mem_map_of_mem mem
    obtain ⟨p', found, key⟩ := ih (p := applyFlag sup now p first) nodup.2 mem
    refine ⟨p', found, fun decodes => (key decodes).trans ?_⟩
    have other : letter first ≠ 98 := fun same => nodup.1 (by
      rw [same, ← decodes]
      exact List.mem_map_of_mem mem)
    exact ((applyFlag_frame sup now p first).key other).1

/-- The flag with a letter. -/
def flagOf (c : UInt8) (tokens : List (List UInt8)) : Option (List UInt8) :=
  tokens.find? (letter · = c)

theorem flagOf_eq_some (found : flagOf c tokens = some token) :
    token ∈ tokens ∧ letter token = c :=
  ⟨List.mem_of_find?_eq_some found, by simpa using List.find?_some found⟩

theorem flagOf_eq_none : flagOf c tokens = none ↔ ∀ token ∈ tokens, letter token ≠ c := by
  simp [flagOf, List.find?_eq_none]

theorem flagOf_of_mem (nodup : (tokens.map letter).Nodup) (mem : token ∈ tokens)
    (here : letter token = c) : flagOf c tokens = some token := by
  cases found : flagOf c tokens with
  | none => exact absurd here (flagOf_eq_none.mp found token mem)
  | some other =>
    obtain ⟨otherMem, same⟩ := flagOf_eq_some found
    rw [List.inj_on_of_nodup_map nodup otherMem mem (same.trans here.symm)]

theorem eq_cons_of_letter (ne : c ≠ 0) (here : letter token = c) : token = c :: token.tail := by
  cases token with
  | nil => exact absurd here ne.symm
  | cons first rest =>
    cases here
    rfl

theorem foldl_eq (ne : c ≠ 0) (get : Preparse → α) (val : List UInt8 → α)
    (keeps : ∀ p token, letter token ≠ c → get (applyFlag sup now p token) = get p)
    (sets : ∀ p' rest, flagOk sup p.key (c :: rest) = true → (c = 98 → p'.key = p.key) →
      get (applyFlag sup now p' (c :: rest)) = val (c :: rest))
    (accepted : Accepted sup p.key [] tokens) :
    get (tokens.foldl (applyFlag sup now) p) = ((flagOf c tokens).map val).getD (get p) := by
  cases found : flagOf c tokens with
  | none => exact foldl_of_absent keeps (flagOf_eq_none.mp found)
  | some token =>
    obtain ⟨mem, here⟩ := flagOf_eq_some found
    obtain ⟨p', same, key⟩ := foldl_of_mem (p := p) keeps accepted.nodup mem here
    have ok := accepted.ok token mem
    rw [here] at key
    rw [eq_cons_of_letter ne here] at same ok ⊢
    exact same.trans (sets p' _ ok key)

/-! ## What a line asks for -/

/-- The key that is meant. -/
def lineKey (sup : Supply) (key : Key) (tokens : List (List UInt8)) : Key :=
  ((flagOf 98 tokens).map fun _ => sup.decode key).getD key

/-- The time that a number stands for. -/
def numberTime (sup : Supply) (now : Nat) (token : List UInt8) : Nat :=
  realtime sup.started now (exptimeToPositiveTime ((safeStrtol token.tail).getD 0))

/-- The new expiry. -/
def lineTtl (sup : Supply) (now : Nat) (tokens : List (List UInt8)) : Option Nat :=
  (flagOf 84 tokens).map (numberTime sup now)

/-! ## The fields -/

theorem number_of_isSome {errstr : String} (value : Option α) {set : MetaFlags → α → MetaFlags}
    (number : value.isSome = true) (d : α) :
    p.number errstr value set = { p with flags := set p.flags (value.getD d) } := by
  cases value with
  | none => cases number
  | some v => rfl

section

variable (now) (accepted : Accepted sup p.key [] tokens)

include accepted

theorem foldl_key : (tokens.foldl (applyFlag sup now) p).key = lineKey sup p.key tokens := by
  refine foldl_eq (by decide) Preparse.key (fun _ => sup.decode p.key)
    (fun p token other => ((applyFlag_frame sup now p token).key other).1) ?_ accepted
  intro p' rest ok key
  rw [← key rfl]
  change (if sup.decode p'.key = [] then _ else _ : Preparse).key = _
  split <;> rfl

theorem foldl_keyBinary : (tokens.foldl (applyFlag sup now) p).flags.keyBinary =
    ((flagOf 98 tokens).map fun _ => true).getD p.flags.keyBinary := by
  refine foldl_eq (by decide) (fun p => p.flags.keyBinary) (fun _ => true)
    (fun p token other => ((applyFlag_frame sup now p token).key other).2) ?_ accepted
  intro p' rest ok _
  change (if sup.decode p'.key = [] then _ else _ : Preparse).flags.keyBinary = _
  split <;> rfl

theorem foldl_setStale : (tokens.foldl (applyFlag sup now) p).flags.setStale =
    ((flagOf 73 tokens).map fun _ => true).getD p.flags.setStale :=
  foldl_eq (by decide) (fun p => p.flags.setStale) (fun _ => true)
    (fun p token => (applyFlag_frame sup now p token).setStale) (fun _ _ _ _ => rfl) accepted

theorem foldl_cas : ((tokens.foldl (applyFlag sup now) p).flags.reqCasId,
      (tokens.foldl (applyFlag sup now) p).flags.hasCas) =
    ((flagOf 67 tokens).map fun token => ((safeUnsigned token.tail).getD 0, true)).getD
      (p.flags.reqCasId, p.flags.hasCas) := by
  let get (p : Preparse) := (p.flags.reqCasId, p.flags.hasCas)
  refine foldl_eq (by decide) get _
    (fun p token other => Prod.ext_iff.mpr ((applyFlag_frame sup now p token).cas other)) ?_
    accepted
  intro p' rest ok _
  exact congrArg get (number_of_isSome (safeUnsigned rest) ok 0)

theorem foldl_clientFlags : (tokens.foldl (applyFlag sup now) p).flags.clientFlags =
    ((flagOf 70 tokens).map fun token => (safeStrtoul token.tail).getD 0).getD
      p.flags.clientFlags := by
  let get (p : Preparse) := p.flags.clientFlags
  refine foldl_eq (by decide) get _
    (fun p token => (applyFlag_frame sup now p token).clientFlags) ?_ accepted
  intro p' rest ok _
  exact congrArg get (number_of_isSome (safeStrtoul rest) ok 0)

theorem foldl_ttl : ((tokens.foldl (applyFlag sup now) p).flags.exptime,
      (tokens.foldl (applyFlag sup now) p).flags.newTtl) =
    ((flagOf 84 tokens).map fun token => (numberTime sup now token, true)).getD
      (p.flags.exptime, p.flags.newTtl) := by
  let get (p : Preparse) := (p.flags.exptime, p.flags.newTtl)
  refine foldl_eq (by decide) get _
    (fun p token other => Prod.ext_iff.mpr ((applyFlag_frame sup now p token).exptime other)) ?_
    accepted
  intro p' rest ok _
  exact congrArg get (number_of_isSome (safeStrtol rest) ok 0)

theorem foldl_vivify : ((tokens.foldl (applyFlag sup now) p).flags.autovivExptime,
      (tokens.foldl (applyFlag sup now) p).flags.vivify) =
    ((flagOf 78 tokens).map fun token => (numberTime sup now token, true)).getD
      (p.flags.autovivExptime, p.flags.vivify) := by
  let get (p : Preparse) := (p.flags.autovivExptime, p.flags.vivify)
  refine foldl_eq (by decide) get _
    (fun p token other => Prod.ext_iff.mpr ((applyFlag_frame sup now p token).vivify other)) ?_
    accepted
  intro p' rest ok _
  exact congrArg get (number_of_isSome (safeStrtol rest) ok 0)

theorem foldl_mode : (tokens.foldl (applyFlag sup now) p).flags.mode =
    ((flagOf 77 tokens).map fun token => token.getD 1 0).getD p.flags.mode := by
  refine foldl_eq (by decide) (fun p => p.flags.mode) _
    (fun p token => (applyFlag_frame sup now p token).mode) ?_ accepted
  intro p' rest ok _
  have two : (77 :: rest).length = 2 := of_decide_eq_true ok
  obtain ⟨mode, rfl⟩ := List.length_eq_one_iff.mp (Nat.succ.inj two)
  rfl

end

end Kvsev.Meta
