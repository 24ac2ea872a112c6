import Kvsev.Meta.Commands
import Kvsev.Meta.Visible

/-!
# Meta commands that end with an error

A `CLIENT_ERROR` should mean that nothing has happened. Only the error for an opaque token that
is too long comes late: `mg` and `ma` find it when they build the answer. Until then `mg` may
have made an item and given it a new expiry, and `ma` has done its arithmetic.
-/

namespace Kvsev.Meta

open Server Connection

inductive Command where
  | mg
  | md
  | ma
  deriving DecidableEq, Repr

/-- What the commands need from outside. -/
structure Input where
  get : MetaInput
  math : MathInput

def Command.run (sup : Supply) (s : State) (t : Tokens) (input : Input) :
    Command → Reply × State
  | mg => processMgetCommand sup s t input.get
  | md => processMdeleteCommand sup s t
  | ma => processMarithmeticCommand sup s t input.math

/-- An error of the client leaves every key as it was. -/
def Harmless (s : State) (after : Reply × State) : Prop :=
  ∀ str, after.1.status = .clientError str → ∀ key, look after.2 key = look s key

/-- A line whose only fault is an opaque token that is too long. -/
structure Overlong (sup : Supply) (t : Tokens) : Prop extends Checked sup t where
  overlong : (flagTokens t).any opaqueTooLong = true

/-- The words before that token. -/
def wordsBefore (tokens : List (List UInt8)) : List (List UInt8) :=
  tokens.takeWhile fun token => !opaqueTooLong token

/-- The expiry that words leave an item with: that of the last `T` or, if the item is new, `N`. -/
def expiryLeft (sup : Supply) (now : Nat) (created : Bool) (words : List (List UInt8))
    (stored : Nat) : Nat :=
  words.foldl (fun exptime token =>
    if letter token = 84 ∨ created = true ∧ letter token = 78 then numberTime sup now token
    else exptime) stored

/-- The mode of a line of `ma`. -/
def lineMode (t : Tokens) : UInt8 :=
  ((flagOf 77 (flagTokens t)).map fun token => token.getD 1 0).getD 0

/-- What the line of a command says about its key and, for `ma`, its numbers. -/
def lineTarget (sup : Supply) (t : Tokens) : Key := lineKey sup (t.word 1) (flagTokens t)

def mathFlags (sup : Supply) (now : Nat) (t : Tokens) : MetaFlags :=
  (linePreparse sup now (t.word 1) { delta := 1 } (flagTokens t)).flags

/-- There is memory for a new item, and it is shown. -/
def Appears (s : State) (key : Key) (nbytes exptime : Nat) (alloc : ItemAlloc) : Prop :=
  itemSizeOk s.settings key.length 0 nbytes = true ∧ alloc.isSome = true ∧
    itemIsDead s { noItem with time := s.currentTime, exptime, cas := nextCas s } = false

/-- What is shown of an item after a number was written over the old one. -/
def writtenFace (s : State) (it : Item) (text : List UInt8) (exptime : Nat) : Face :=
  { face it with
    value := inPlaceData it text, exptime
    cas := if s.settings.useCas then u64 (s.casId + 1) else it.cas }

/-- What is shown of the item that takes its place if there is no room or no peace for that. -/
def replacedFace (s : State) (it : Item) (text : List UInt8) : Face :=
  ⟨text ++ [13, 10], it.flags, it.exptime, nextCas s, false, false⟩

/-- What shows of an `mg` whose error comes late: another expiry, or a new item. -/
def MgetChanges (sup : Supply) (s : State) (key : Key) (tokens : List (List UInt8))
    (alloc : ItemAlloc) : Prop :=
  match liveItem s key with
  | some p => (s.heap p).refcount < itRefcountLimit ∧
    expiryLeft sup s.currentTime false (wordsBefore tokens) (s.heap p).exptime ≠ (s.heap p).exptime
  | none => (flagOf 78 tokens).isSome = true ∧
    Appears s key 2 (expiryLeft sup s.currentTime true (wordsBefore tokens) 0) alloc

/-- What shows of such an `ma`: another number, unique or expiry, or a new item. -/
def MathChanges (sup : Supply) (s : State) (key : Key) (of : MetaFlags) (incr : Bool)
    (tokens : List (List UInt8)) (input : MathInput) : Prop :=
  match liveItem s key with
  | some p => ∃ text,
    deltaText s ⟨key, incr, of.delta, of.reqCasId, input.dashBehind, input.alloc⟩ (s.heap p) =
      .ok text ∧
    if deltaFits s p text then
      writtenFace s (s.heap p) text (expiryLeft sup s.currentTime false (wordsBefore tokens)
        (s.heap p).exptime) ≠ face (s.heap p)
    else itemSizeOk s.settings (s.heap p).key.length (s.heap p).flags (text.length + 2) = true ∧
      input.alloc.isSome = true ∧ replacedFace s (s.heap p) text ≠ face (s.heap p)
  | none => (flagOf 78 tokens).isSome = true ∧
    Appears s key ((itoaU64 of.initial).length + 2)
      (expiryLeft sup s.currentTime true (wordsBefore tokens) 0) input.created

/-- The error of a command comes late, and something shows of what came before. -/
def Changes (sup : Supply) (s : State) (t : Tokens) (input : Input) : Command → Prop
  | .mg => Overlong sup t ∧ MgetChanges sup s (lineTarget sup t) (flagTokens t) input.get.alloc
  | .md => False
  | .ma => Overlong sup t ∧ ∃ incr, mathMode (lineMode t) = some incr ∧
    MathChanges sup s (lineTarget sup t) (mathFlags sup s.currentTime t) incr (flagTokens t)
      input.math

variable {sup : Supply} {s s' : State} {t : Tokens} {key : Key} {p : ItemPtr}
variable {of : MetaFlags} {tokens : List (List UInt8)} {flags : List MetaFlag}

/-! ## The second loop -/

variable {token : List UInt8} {flag : List UInt8 → Option MetaFlag}

theorem opaqueTooLong_iff : opaqueTooLong token = true ↔
    letter token = 79 ∧ mflagMaxOpaqueLength < token.length := by
  cases token with
  | nil => simp [opaqueTooLong]
  | cons first rest => simp [opaqueTooLong, letter]

/-- Flags that leave the expiry alone. -/
def keeps : MetaFlag → Bool
  | .newTtl _ | .vivify _ => false
  | _ => true

/-- What the second loop makes of the words that matter here. -/
structure Sees (of : MetaFlags) (flag : List UInt8 → Option MetaFlag) : Prop where
  opaqueToken : ∀ token, letter token = 79 → flag token = some (.opaqueToken token)
  newTtl : ∀ token, letter token = 84 → flag token = some (.newTtl of.exptime)
  vivify : ∀ token, letter token = 78 → flag token = some (.vivify of.autovivExptime)
  other : ∀ token found, letter token ≠ 79 → letter token ≠ 84 → letter token ≠ 78 →
    flag token = some found → found.tooLong = false ∧ keeps found = true

theorem sees_mgetFlag (of : MetaFlags) : Sees of (mgetFlag of) where
  opaqueToken token here := by
    rw [eq_cons_of_letter (by decide) here]
    rfl
  newTtl token here := by
    rw [eq_cons_of_letter (by decide) here]
    rfl
  vivify token here := by
    rw [eq_cons_of_letter (by decide) here]
    rfl
  other token found notOpaque notNewTtl notVivify eq := by
    unfold mgetFlag at eq
    split at eq
    case h_1 head => exact absurd (letter_eq_of_head head) notNewTtl
    case h_2 head => exact absurd (letter_eq_of_head head) notVivify
    case h_10 head => exact absurd (letter_eq_of_head head) notOpaque
    case h_15 => cases eq
    all_goals
      cases eq
      exact ⟨rfl, rfl⟩

theorem sees_mathFlag (of : MetaFlags) : Sees of (mathFlag of) where
  opaqueToken token here := by
    rw [eq_cons_of_letter (by decide) here]
    rfl
  newTtl token here := by
    rw [eq_cons_of_letter (by decide) here]
    rfl
  vivify token here := by
    rw [eq_cons_of_letter (by decide) here]
    rfl
  other token found notOpaque notNewTtl notVivify eq := by
    unfold mathFlag at eq
    split at eq
    case h_3 head => exact absurd (letter_eq_of_head head) notNewTtl
    case h_4 head => exact absurd (letter_eq_of_head head) notVivify
    case h_5 head => exact absurd (letter_eq_of_head head) notOpaque
    case h_7 => cases eq
    all_goals
      cases eq
      exact ⟨rfl, rfl⟩

theorem Sees.tooLong (sees : Sees of flag) {found : MetaFlag} (eq : flag token = some found) :
    found.tooLong = opaqueTooLong token := by
  by_cases here : letter token = 79
  · rw [sees.opaqueToken token here] at eq
    cases eq
    rw [Bool.eq_iff_iff, opaqueTooLong_iff]
    exact ⟨fun long => ⟨here, of_decide_eq_true long⟩, fun long => decide_eq_true long.2⟩
  have short : opaqueTooLong token = false := by
    rw [Bool.eq_false_iff, Ne, opaqueTooLong_iff]
    exact fun long => here long.1
  rw [short]
  by_cases newTtl : letter token = 84
  · rw [sees.newTtl token newTtl] at eq
    cases eq
    rfl
  by_cases vivify : letter token = 78
  · rw [sees.vivify token vivify] at eq
    cases eq
    rfl
  exact (sees.other token found here newTtl vivify eq).1

theorem Sees.none (sees : Sees of flag) (eq : flag token = none) :
    opaqueTooLong token = false := by
  rw [Bool.eq_false_iff, Ne, opaqueTooLong_iff]
  rintro ⟨here, -⟩
  rw [sees.opaqueToken token here] at eq
  cases eq

theorem Sees.any (sees : Sees of flag) (tokens : List (List UInt8)) :
    (tokens.filterMap flag).any MetaFlag.tooLong = tokens.any opaqueTooLong := by
  induction tokens with
  | nil => rfl
  | cons token tokens ih =>
    cases eq : flag token with
    | none => rw [List.filterMap_cons_none eq, List.any_cons, sees.none eq, ih, Bool.false_or]
    | some found =>
      rw [List.filterMap_cons_some eq, List.any_cons, List.any_cons, sees.tooLong eq, ih]

theorem Sees.takeWhile (sees : Sees of flag) (tokens : List (List UInt8)) :
    (tokens.filterMap flag).takeWhile (fun found => !found.tooLong) =
      (tokens.takeWhile fun token => !opaqueTooLong token).filterMap flag := by
  induction tokens with
  | nil => rfl
  | cons token tokens ih =>
    cases eq : flag token with
    | none =>
      rw [List.filterMap_cons_none eq, List.takeWhile_cons, sees.none eq]
      simp only [Bool.not_false, if_true]
      rw [List.filterMap_cons_none eq, ih]
    | some found =>
      rw [List.filterMap_cons_some eq, List.takeWhile_cons, List.takeWhile_cons, sees.tooLong eq]
      cases opaqueTooLong token with
      | true => rfl
      | false =>
        simp only [Bool.not_false, if_true]
        rw [List.filterMap_cons_some eq, ih]

theorem metaFields_keeps {found : MetaFlag} (kept : keeps found = true) (s : State)
    (created fetched : Bool) (it : Item) (won : Bool) (flags : List MetaFlag) :
    ∃ won', (metaFields s created fetched it won (found :: flags)).1 =
      (metaFields s created fetched it won' flags).1 := by
  cases found with
  | newTtl _ | vivify _ => cases kept
  | _ => exact ⟨_, rfl⟩

/-- The first loop has left the times that the words `T` and `N` write. -/
def Times (sup : Supply) (now : Nat) (of : MetaFlags) (tokens : List (List UInt8)) : Prop :=
  ∀ token ∈ tokens, (letter token = 84 → of.exptime = numberTime sup now token) ∧
    (letter token = 78 → of.autovivExptime = numberTime sup now token)

variable {now : Nat} {created fetched : Bool}

/-- The loop changes nothing of an item but its expiry. -/
theorem Sees.metaFields (sees : Sees of flag) (times : Times sup now of tokens) (it : Item)
    (won : Bool) :
    (metaFields s created fetched it won (tokens.filterMap flag)).1 =
      { it with exptime := expiryLeft sup now created tokens it.exptime } := by
  induction tokens generalizing it won with
  | nil => rfl
  | cons token tokens ih =>
    have rest := ih fun other mem => times other (List.mem_cons_of_mem token mem)
    obtain ⟨newTtlNumber, vivifyNumber⟩ := times token List.mem_cons_self
    rw [expiryLeft, List.foldl_cons]
    by_cases newTtl : letter token = 84
    · rw [List.filterMap_cons_some (sees.newTtl token newTtl), if_pos (.inl newTtl),
        ← newTtlNumber newTtl]
      exact rest _ _
    by_cases vivify : letter token = 78
    · rw [List.filterMap_cons_some (sees.vivify token vivify)]
      cases created with
      | true =>
        rw [if_pos (.inr ⟨rfl, vivify⟩), ← vivifyNumber vivify]
        exact rest _ _
      | false =>
        rw [if_neg (by simp [newTtl])]
        exact rest _ _
    rw [if_neg (by simp [newTtl, vivify])]
    cases found : flag token with
    | none =>
      rw [List.filterMap_cons_none found]
      exact rest _ _
    | some field =>
      rw [List.filterMap_cons_some found]
      have kept : keeps field = true := by
        by_cases here : letter token = 79
        · cases (sees.opaqueToken token here).symm.trans found
          rfl
        · exact (sees.other token field here newTtl vivify found).2
      obtain ⟨won', eq⟩ := metaFields_keeps kept s created fetched it won (tokens.filterMap flag)
      rw [eq]
      exact rest _ _

/-- The state that a late error leaves. -/
def refused (sup : Supply) (s : State) (p : ItemPtr) (created : Bool)
    (tokens : List (List UInt8)) : State :=
  doItemRemove (s.modify p fun it =>
    { it with
      exptime := expiryLeft sup s.currentTime created (wordsBefore tokens) it.exptime }) p

theorem Sees.metaRefuse (sees : Sees of flag) (times : Times sup s.currentTime of tokens)
    (input : MetaInput) :
    (metaRefuse s p created (tokens.filterMap flag) input).2 = refused sup s p created tokens := by
  rw [Server.metaRefuse, sees.takeWhile]
  simp only [sees.metaFields fun token mem => times token ((List.takeWhile_prefix _).subset mem)]
  rfl

theorem refused_item (sup : Supply) (s : State) (p : ItemPtr) (created : Bool)
    (tokens : List (List UInt8)) :
    ((refused sup s p created tokens).heap p).time = (s.heap p).time ∧
      face ((refused sup s p created tokens).heap p) =
        { face (s.heap p) with
          exptime := expiryLeft sup s.currentTime created (wordsBefore tokens)
            (s.heap p).exptime } := by
  simp [refused, doItemRemove, face]

/-! ## What shows of it -/

theorem harmless_of_status {after : Reply × State}
    (other : ∀ str, after.1.status ≠ .clientError str) : Harmless s after :=
  fun str error => absurd error (other str)

theorem harmless_iff_look {after : Reply × State} {str : String}
    (error : after.1.status = .clientError str) :
    Harmless s after ↔ ∀ key, look after.2 key = look s key :=
  ⟨fun harmless => harmless str error, fun same _ _ => same⟩

theorem Spares.refused (free : ¬Others s key p) (spares : Spares (Others s key) key s s')
    (sup : Supply) (created : Bool) (tokens : List (List UInt8)) :
    Spares (Others s key) key s (refused sup s' p created tokens) :=
  (spares.trans (.modify free _)).trans (.doItemRemove free)

/-- What `do_item_link` makes of a fresh item, under a key that showed nothing. -/
structure Born (s : State) (key : Key) (p : ItemPtr) (s' : State) : Prop where
  free : ¬Others s key p
  spares : Spares (Others s key) key s s'
  here : s'.assoc key = some p
  time : (s'.heap p).time = s.currentTime
  cas : (s'.heap p).cas = nextCas s
  exptime : (s'.heap p).exptime = 0

theorem Born.look_refused_iff (born : Born s key p s') (missed : liveItem s key = none)
    (sup : Supply) (tokens : List (List UInt8)) :
    (∀ other, look (refused sup s' p true tokens) other = look s other) ↔
      itemIsDead s
        { noItem with
          time := s.currentTime, cas := nextCas s
          exptime := expiryLeft sup s.currentTime true (wordsBefore tokens) 0 } = true := by
  have spares := born.spares.refused born.free sup true tokens
  obtain ⟨time, shown⟩ := refused_item sup s' p true tokens
  rw [spares.look_iff_of_missed born.here missed]
  have expiry : ((refused sup s' p true tokens).heap p).exptime =
      expiryLeft sup s.currentTime true (wordsBefore tokens) 0 := by
    refine (congrArg Face.exptime shown).trans ?_
    simp only [born.exptime, born.spares.currentTime]
  have same : itemIsDead s ((refused sup s' p true tokens).heap p) = itemIsDead s { noItem with
      time := s.currentTime, cas := nextCas s
      exptime := expiryLeft sup s.currentTime true (wordsBefore tokens) 0 } :=
    itemIsDead_congr ⟨rfl, rfl, rfl, rfl⟩ (time.trans born.time)
      ((congrArg Face.cas shown).trans born.cas) expiry
  rw [same]

theorem born_of_alloc (table : WellLinked s) {s₁ s₂ : State}
    (looked : Spares (Others s key) key s s₁) (next : s₁.next = s.next)
    (casId : s₁.casId = s.casId) {nbytes : Nat} {alloc : ItemAlloc}
    (given : doItemAlloc s₁ key 0 0 nbytes alloc = (some p, s₂)) (data : List UInt8) :
    Born s key p (doItemLink (s₂.modify p fun it => { it with data }) p) := by
  obtain ⟨-, left, rfl, pointer, -, fresh⟩ := doItemAlloc_some given
  have free : ¬Others s key p :=
    not_others_of_next table (Nat.le_of_eq (pointer.trans next).symm)
  have made : Spares (Others s key) key s s₂ := looked.trans (.doItemAlloc (pointer ▸ free) given)
  have named : ((s₂.modify p fun it => { it with data }).heap p).key = key := by
    simp [fresh, newItem]
  have cas : s₂.casId = s.casId := by
    rw [doItemAlloc_frame given]
    exact casId
  obtain ⟨time, shown⟩ := doItemLink_item (s₂.modify p fun it => { it with data }) p
  refine ⟨free, (made.trans (.modify free _)).trans (.doItemLink free named), ?_,
    time.trans made.currentTime, (congrArg Face.cas shown).trans ?_,
    (congrArg Face.exptime shown).trans ?_⟩
  · rw [doItemLink, named]
    exact Function.update_self ..
  · simp only [State.modify_settings, made.settings, State.modify_heap_self, fresh, newItem,
      nextCas]
    rw [← cas]
    rfl
  · simp [face, fresh, newItem]

theorem look_born_iff (table : WellLinked s) (missed : liveItem s key = none) {s₁ s₂ : State}
    (looked : Spares (Others s key) key s s₁) (next : s₁.next = s.next)
    (casId : s₁.casId = s.casId) {nbytes : Nat} {alloc : ItemAlloc}
    (given : doItemAlloc s₁ key 0 0 nbytes alloc = (some p, s₂)) (data : List UInt8)
    (sup : Supply) (tokens : List (List UInt8)) :
    (∀ other, look (refused sup (doItemLink (s₂.modify p fun it => { it with data }) p) p true
        tokens) other = look s other) ↔
      ¬Appears s key nbytes (expiryLeft sup s.currentTime true (wordsBefore tokens) 0) alloc := by
  have born := born_of_alloc table looked next casId given data
  obtain ⟨room, left, some_, -⟩ := doItemAlloc_some given
  rw [looked.settings] at room
  rw [born.look_refused_iff missed, Appears, some_]
  simp [room]

theorem not_appears_of_none {s₁ s₂ : State} (settings : s₁.settings = s.settings)
    {nbytes : Nat} {alloc : ItemAlloc} (none : doItemAlloc s₁ key 0 0 nbytes alloc = (none, s₂))
    (exptime : Nat) : ¬Appears s key nbytes exptime alloc := by
  rintro ⟨room, some_, -⟩
  rw [← settings] at room
  obtain ⟨p, s', given⟩ := doItemAlloc_of_room 0 ⟨room, some_⟩
  cases none.symm.trans given

/-! ## `mg` -/

theorem any_vivifies : (tokens.filterMap (mgetFlag of)).any MetaFlag.vivifies =
    (flagOf 78 tokens).isSome := by
  rw [flagOf, List.isSome_find?]
  induction tokens with
  | nil => rfl
  | cons token tokens ih =>
    rcases mgetFlag_cases of token with ⟨ttl, flag⟩ | ⟨newTtl, flag⟩ | ⟨vivify, flag⟩ |
      ⟨⟨_, _, notVivify⟩, isPlain⟩
    · rw [List.filterMap_cons_some flag, List.any_cons, List.any_cons, ih, ttl]
      rfl
    · rw [List.filterMap_cons_some flag, List.any_cons, List.any_cons, ih, newTtl]
      rfl
    · rw [List.filterMap_cons_some flag, List.any_cons, List.any_cons, vivify]
      rfl
    rw [List.any_cons, decide_eq_false notVivify, Bool.false_or, ← ih]
    cases found : mgetFlag of token with
    | none => rw [List.filterMap_cons_none found]
    | some flag =>
      rw [List.filterMap_cons_some found, List.any_cons]
      have isPlain := isPlain flag found
      cases flag with
      | vivify _ => cases isPlain
      | _ => rfl

theorem mgetAnswer_status {input : MetaInput} {str : String}
    (fits : flags.any MetaFlag.tooLong = false) :
    (mgetAnswer s p created flags input).1.status ≠ .clientError str := by
  rw [mgetAnswer, fits]
  simp only [Bool.false_eq_true, if_false]
  split <;> exact Status.noConfusion

theorem mgetItem_status {input : MetaInput} {str : String}
    (fits : flags.any MetaFlag.tooLong = false) :
    (mgetItem s key flags input).1.status ≠ .clientError str := by
  rw [mgetItem]
  split
  · split
    · exact Status.noConfusion
    · exact mgetAnswer_status fits
  · split
    · split
      · exact mgetAnswer_status fits
      · exact Status.noConfusion
    · exact Status.noConfusion

section

variable (times : Times sup s.currentTime of tokens)
variable (long : tokens.any opaqueTooLong = true) (orderly : Orderly s)

include times long orderly

theorem mgetItem_harmless_iff (input : MetaInput) :
    Harmless s (mgetItem s key (tokens.filterMap (mgetFlag of)) input) ↔
      ¬MgetChanges sup s key tokens input.alloc := by
  have sees := sees_mgetFlag of
  have seen := (sees.any tokens).trans long
  rw [mgetItem, MgetChanges]
  generalize (input.bump && !((tokens.filterMap (mgetFlag of)).contains .noUpdate ||
    (tokens.filterMap (mgetFlag of)).any MetaFlag.locks)) = bump
  have spares : Spares (Others s key) key s _ := .doItemGet orderly.linked bump
  cases live : liveItem s key with
  | some p =>
    obtain ⟨s₁, found, same, currentTime, table, refcount, time⟩ := doItemGet_of_hit live bump
    have here := (liveItem_eq_some.mp live).1
    rw [found] at spares ⊢
    dsimp only at spares ⊢
    rw [refcount]
    by_cases beyond : itRefcountLimit < (s.heap p).refcount + 1
    · have busy : ¬(s.heap p).refcount < itRefcountLimit := by omega
      simp only [if_pos beyond, busy, false_and, not_false_eq_true, iff_true]
      exact harmless_of_status fun _ => Status.noConfusion
    have calm : (s.heap p).refcount < itRefcountLimit := by omega
    obtain ⟨sameTime, shown⟩ := refused_item sup s₁ p false tokens
    have stored : (s₁.heap p).exptime = (s.heap p).exptime := congrArg Face.exptime same
    rw [← currentTime] at times
    rw [if_neg beyond, mgetAnswer, if_pos seen, harmless_iff_look rfl, sees.metaRefuse times,
      (spares.refused (not_others_of_here orderly.linked here) sup false tokens).look_iff
        (by rw [← here, ← table]; rfl) orderly live (by rw [sameTime]; exact time), shown, same,
      currentTime, stored]
    simp [face, calm]
  | none =>
    obtain ⟨heap, assoc, missed⟩ := doItemGet_of_missed live bump
    rw [missed] at spares ⊢
    dsimp only at spares ⊢
    rw [any_vivifies]
    cases (flagOf 78 tokens).isSome with
    | false =>
      simp only [Bool.false_eq_true, if_false, false_and, not_false_eq_true, iff_true]
      exact harmless_of_status fun _ => Status.noConfusion
    | true =>
      simp only [if_true, true_and]
      rcases given : doItemAlloc { s with heap, assoc } key 0 0 2 input.alloc with ⟨_ | p, s₂⟩
      · exact iff_of_true (harmless_of_status fun _ => Status.noConfusion)
          (not_appears_of_none spares.settings given _)
      · have born := born_of_alloc orderly.linked spares rfl rfl given [13, 10]
        rw [← born.spares.currentTime] at times
        simp only [mgetAnswer, if_pos seen]
        rw [harmless_iff_look rfl, sees.metaRefuse times,
          look_born_iff orderly.linked live spares rfl rfl given]

end

/-! ## `ma` -/

theorem deltaText_error {req : DeltaRequest} {it : Item} {r : DeltaResultType}
    (error : deltaText s req it = .error r) : r = .nonNumeric ∨ r = .itemCasMismatch := by
  rw [deltaText] at error
  split at error
  · cases error
    exact .inl rfl
  split at error
  · cases error
    exact .inr rfl
  split at error
  · cases error
    exact .inl rfl
  · cases error

theorem doAddDeltaItem_quiet (orderly : Orderly s) {req : DeltaRequest}
    {ret : Option (ItemPtr × List UInt8)}
    (ran : doAddDeltaItem s req = (.nonNumeric, ret, s')) : Quiet s s' := by
  have quiet := Quiet.doItemGet orderly req.key false
  rw [doAddDeltaItem] at ran
  split at ran
  · cases ran
  rename_i p s₁ found
  rw [found] at quiet
  dsimp only at ran
  split at ran
  · cases ran
    exact quiet.trans (Quiet.doItemRemove _ p)
  · split at ran
    · cases ran
    · split at ran
      · rw [deltaReplace] at ran
        split at ran <;> cases ran
      · cases ran

theorem mathAnswer_status {number : List UInt8} {str : String}
    (fits : flags.any MetaFlag.tooLong = false) :
    (mathAnswer s p created of flags number).1.status ≠ .clientError str := by
  rw [mathAnswer, fits]
  simp only [Bool.false_eq_true, if_false]
  split <;> exact Status.noConfusion

theorem mathMiss_status {status : Status} {str : String} (ne : status ≠ .clientError str)
    (fits : tokens.any opaqueTooLong = false) :
    (mathMiss s key tokens status).1.status ≠ .clientError str := by
  simpa [mathMiss, fits] using ne

/-- If the opaque token fits, the only late error of `ma` is that for a value that is not a
number. -/
theorem mathItem_harmless (orderly : Orderly s) {incr : Bool} {input : MathInput}
    (fits : tokens.any opaqueTooLong = false) :
    Harmless s (mathItem s key of incr tokens input) := by
  have seen := ((sees_mathFlag of).any tokens).trans fits
  intro str error
  unfold mathItem at error ⊢
  split at error
  · rename_i ran
    exact (doAddDeltaItem_quiet orderly ran).look
  · cases error
  · exact absurd error (mathMiss_status Status.noConfusion fits)
  · split at error
    · rw [mathVivify] at error
      split at error
      · cases error
      · exact absurd error (mathAnswer_status seen)
    · exact absurd error (mathMiss_status Status.noConfusion fits)
  · exact absurd error (mathAnswer_status seen)
  · exact absurd error (mathMiss_status Status.noConfusion fits)

theorem Spares.doItemUpdate {kept : ItemPtr → Prop} (free : ¬kept p) :
    Spares kept key s (doItemUpdate s p) := by
  rw [Server.doItemUpdate]
  split
  · exact .modify free _
  · exact .refl s

theorem Spares.deltaInPlace {kept : ItemPtr → Prop} (free : ¬kept p) (text : List UInt8) :
    Spares kept key s (deltaInPlace s p text) := by
  refine .trans ?_ (.doItemUpdate free)
  refine ⟨⟨rfl, rfl, rfl, rfl⟩, fun _ _ => rfl, fun q here => ?_⟩
  have ne : q ≠ p := fun same => free (same ▸ here)
  simp [State.modify, ne]

/-- A number that is written over the old one. -/
theorem deltaInPlace_item (s : State) (p : ItemPtr) (text : List UInt8) :
    let s' := deltaInPlace (refcountIncr s p) p text
    s'.assoc = s.assoc ∧
      ((s'.heap p).time = (s.heap p).time ∨ (s'.heap p).time = s.currentTime) ∧
      face (s'.heap p) = writtenFace s (s.heap p) text (s.heap p).exptime := by
  cases linked : (s.heap p).linked <;> cases on : s.settings.useCas <;>
    simp [deltaInPlace, doItemUpdate, itemSetCas, refcountIncr, State.modify, linked, on, face,
      writtenFace, inPlaceData, Item.nbytes]

/-- A new item takes the place of one whose number cannot be written over. -/
theorem deltaReplace_shows (table : WellLinked s) (here : s.assoc key = some p)
    {text : List UInt8} {alloc : ItemAlloc} {r : DeltaResultType}
    {ret : Option (ItemPtr × List UInt8)}
    (ran : deltaReplace (refcountIncr s p) p text alloc = (r, ret, s')) :
    let room := itemSizeOk s.settings (s.heap p).key.length (s.heap p).flags (text.length + 2)
    (r = .eom ∧ ¬(room = true ∧ alloc.isSome = true)) ∨
      (room = true ∧ alloc.isSome = true) ∧ r = .ok ∧ ret = some (p, text) ∧
        Spares (Others s key) key s s' ∧ ∃ new, new ≠ p ∧ s'.assoc key = some new ∧
          (s'.heap new).time = s.currentTime ∧
          face (s'.heap new) = replacedFace s (s.heap p) text := by
  intro room
  have free := not_others_of_here table here
  have item : (refcountIncr s p).heap p = { s.heap p with
      refcount := (s.heap p).refcount + 1
      peak := max (s.heap p).peak ((s.heap p).refcount + 1) } := State.modify_heap_self ..
  rw [deltaReplace, item] at ran
  rcases given : doItemAlloc (refcountIncr s p) (s.heap p).key (s.heap p).flags
      (s.heap p).exptime (text.length + 2) alloc with ⟨_ | new, s₂⟩
  · simp only [given] at ran
    cases ran
    refine .inl ⟨rfl, fun both => ?_⟩
    obtain ⟨q, s', some_⟩ := doItemAlloc_of_room (s := refcountIncr s p) (s.heap p).exptime both
    cases given.symm.trans some_
  simp only [given] at ran
  cases ran
  obtain ⟨ok, left, rfl, pointer, -, fresh⟩ := doItemAlloc_some given
  have other : new ≠ p := by
    rw [pointer]
    exact Nat.ne_of_gt (table.old key p here)
  have freeNew : ¬Others s key new := not_others_of_next table (Nat.le_of_eq pointer.symm)
  have named : (s.heap p).key = key := table.key key p here
  rw [named] at given
  have made : Spares (Others s key) key s s₂ :=
    .trans (.modify free _) (.doItemAlloc (pointer ▸ freeNew) given)
  have frame := doItemAlloc_frame given
  have old : (s₂.heap p).key = key := by
    rw [frame]
    simp only [Function.update_of_ne (Nat.ne_of_lt (table.old key p here) : p ≠ s.next),
      refcountIncr, State.modify_next, State.modify_heap_self, named]
  -- The old item goes, and the new one comes under its key.
  generalize written : (s₂.modify new fun it => { it with data := text ++ [13, 10] }) = s₃
  have named₃ : (s₃.heap p).key = key := by
    rw [← written, State.modify_heap_of_ne _ other.symm, old]
  have fresh₃ : s₃.heap new =
      { newItem s key (s.heap p).flags (s.heap p).exptime (text.length + 2) left with
        data := text ++ [13, 10] } := by
    rw [← written, State.modify_heap_self, fresh, named]
    rfl
  have settings₃ : s₃.settings = s.settings := by rw [← written]; exact made.settings
  have casId : (doItemUnlink s₃ p).casId = s.casId := by
    have same : s₃.casId = s.casId := by
      rw [← written, frame]
      rfl
    rw [← same, doItemUnlink]
    split <;> rfl
  have unlinked : Spares (· = new) key s₃ (doItemUnlink s₃ p) := .doItemUnlink other.symm named₃
  have same := unlinked.items new rfl
  have linked : Spares (Others s key) key s (doItemReplace s₃ p new) := by
    refine ((made.trans ?_).trans (.doItemUnlink free named₃)).trans (.doItemLink freeNew ?_)
    · rw [← written]
      exact .modify freeNew _
    · rw [same, fresh₃]
      rfl
  obtain ⟨time, shown⟩ := doItemLink_item (doItemUnlink s₃ p) new
  rw [unlinked.settings, settings₃, casId, same, fresh₃] at shown
  refine .inr ⟨⟨ok, rfl⟩, rfl, rfl, (linked.trans (.modify free _)).trans (.doItemRemove freeNew),
    new, other, ?_, ?_, ?_⟩
  · simp only [doItemRemove, State.modify_assoc, doItemReplace, doItemLink, same, fresh₃]
    exact Function.update_self ..
  · simp only [doItemRemove, State.modify_heap_self, State.modify_heap_of_ne _ other]
    exact time.trans (linked.currentTime)
  · simp only [doItemRemove, State.modify_heap_self, State.modify_heap_of_ne _ other, replacedFace]
    refine Eq.trans ?_ shown
    rfl

section

variable (times : Times sup s.currentTime of tokens)
variable (vivify : of.vivify = (flagOf 78 tokens).isSome)
variable (long : tokens.any opaqueTooLong = true) (orderly : Orderly s)
variable (counted : ∀ p, s.assoc key = some p → 0 < (s.heap p).refcount)

include times vivify long orderly counted

theorem mathItem_harmless_iff (incr : Bool) (input : MathInput) :
    Harmless s (mathItem s key of incr tokens input) ↔
      ¬MathChanges sup s key of incr tokens input := by
  have sees := sees_mathFlag of
  have seen := (sees.any tokens).trans long
  rw [mathItem, doAddDeltaItem, MathChanges]
  cases live : liveItem s key with
  | some p =>
    have here := (liveItem_eq_some.mp live).1
    have free := not_others_of_here orderly.linked here
    have returned : Quiet s (doItemRemove (refcountIncr s p) p) :=
      (Quiet.refcountIncr s p).trans (Quiet.doItemRemove _ p)
    rw [doItemGet_of_live live]
    simp only [deltaText_refcountIncr]
    rcases parsed : deltaText s ⟨key, incr, of.delta, of.reqCasId, input.dashBehind, input.alloc⟩
      (s.heap p) with r | text
    · simp only [reduceCtorEq, false_and, exists_false, not_false_eq_true, iff_true]
      rcases deltaText_error parsed with rfl | rfl
      · exact fun _ _ => returned.look
      · intro _ _
        simp only [mathMiss, long, if_true]
        exact returned.look
    simp only [Except.ok.injEq, exists_eq_left']
    by_cases fits : deltaFits s p text = true
    · have spares : Spares (Others s key) key s (deltaInPlace (refcountIncr s p) p text) :=
        .trans (.modify free _) (.deltaInPlace free text)
      obtain ⟨table, time, shown⟩ := deltaInPlace_item s p text
      obtain ⟨sameTime, left⟩ :=
        refused_item sup (deltaInPlace (refcountIncr s p) p text) p false tokens
      have stored : ((deltaInPlace (refcountIncr s p) p text).heap p).exptime =
          (s.heap p).exptime := congrArg Face.exptime shown
      rw [← spares.currentTime] at times
      simp only [if_pos (deltaFits_iff.mp fits), if_pos fits, mathAnswer, if_pos seen]
      rw [harmless_iff_look rfl, sees.metaRefuse times,
        (spares.refused free sup false tokens).look_iff (by rw [← here]; exact congrFun table key)
          orderly live (by rw [sameTime]; exact time), left, shown, spares.currentTime, stored,
        not_not]
      rfl
    have busy : ¬(text.length + 2 ≤ ((refcountIncr s p).heap p).nbytes ∧
        ((refcountIncr s p).heap p).refcount = 2) := fun both => fits (deltaFits_iff.mpr both)
    have held : 1 < ((refcountIncr s p).heap p).refcount := by
      have once := counted p here
      simpa [refcountIncr] using once
    rw [if_neg busy, if_pos held, if_neg fits]
    rcases ran : deltaReplace (refcountIncr s p) p text input.alloc with ⟨r, ret, s'⟩
    obtain ⟨rfl, full⟩ | ⟨room, rfl, rfl, spares, new, other, linked, time, shown⟩ :=
      deltaReplace_shows orderly.linked here ran
    · exact iff_of_true (harmless_of_status fun _ => Status.noConfusion)
        fun changed => full ⟨changed.1, changed.2.1⟩
    · rw [← spares.currentTime] at times
      simp only [mathAnswer, if_pos seen, room, true_and]
      have untouched : (refused sup s' p false tokens).heap new = s'.heap new := by
        simp [refused, doItemRemove, State.modify_heap_of_ne _ other]
      rw [harmless_iff_look rfl, sees.metaRefuse times,
        (spares.refused free sup false tokens).look_iff linked orderly live
          (.inr (by rw [untouched, time])), untouched, shown, not_not]
  | none =>
    have spares : Spares (Others s key) key s _ := .doItemGet orderly.linked false
    obtain ⟨heap, assoc, missed⟩ := doItemGet_of_missed live false
    have gone := assoc_of_missed orderly.linked live false
    have quiet := Quiet.doItemGet orderly key false
    rw [missed] at spares gone quiet ⊢
    dsimp only at spares gone quiet ⊢
    rw [vivify]
    cases (flagOf 78 tokens).isSome with
    | false =>
      simp only [Bool.false_eq_true, if_false, false_and, not_false_eq_true, iff_true, mathMiss,
        long, if_true]
      exact fun _ _ => quiet.look
    | true =>
      simp only [if_true, true_and, mathVivify]
      rcases given : doItemAlloc { s with heap, assoc } key 0 0 ((itoaU64 of.initial).length + 2)
        input.created with ⟨_ | p, s₂⟩
      · exact iff_of_true (harmless_of_status fun _ => Status.noConfusion)
          (not_appears_of_none spares.settings given _)
      · have born := born_of_alloc orderly.linked spares rfl rfl given
          (itoaU64 of.initial ++ [13, 10])
        rw [← born.spares.currentTime] at times
        obtain ⟨-, left, -, pointer, -, fresh⟩ := doItemAlloc_some given
        have stored : doStoreItem
            (s₂.modify p fun it => { it with data := itoaU64 of.initial ++ [13, 10] }) p .add false
              input.copy =
            (.stored, doItemLink
              (s₂.modify p fun it => { it with data := itoaU64 of.initial ++ [13, 10] }) p) := by
          have named : s₂.assoc (s₂.heap p).key = none := by
            rw [fresh, doItemAlloc_frame given]
            exact gone
          simp [doStoreItem, doItemGet, named, storeAbsent]
        simp only [stored, mathAnswer, if_pos seen, decide_true]
        rw [harmless_iff_look rfl, sees.metaRefuse times,
          look_born_iff orderly.linked live spares rfl rfl given]

end

/-! ## The commands -/

theorem Overlong.more (line : Overlong sup t) : t.ntokens ≠ 3 := by
  have some_ : 0 < (flagTokens t).length := by
    obtain ⟨token, mem, _⟩ := List.any_eq_true.mp line.overlong
    exact List.length_pos_of_mem mem
  rw [flagTokens, List.length_drop] at some_
  rw [Tokens.ntokens]
  omega

/-- The flags as `mg` sees them. -/
def mgetFlags (sup : Supply) (now : Nat) (t : Tokens) : List MetaFlag :=
  (flagTokens t).filterMap (mgetFlag (linePreparse sup now (t.word 1) {} (flagTokens t)).flags)

theorem mget_of_checked (line : Checked sup t) (more : t.ntokens ≠ 3) (s : State)
    (input : MetaInput) :
    processMgetCommand sup s t input =
      mgetItem s (lineKey sup (t.word 1) (flagTokens t)) (mgetFlags sup s.currentTime t)
        input := by
  rw [processMgetCommand, if_neg line.words, if_neg (by simp [more, line.short]),
    if_neg line.few, preparse_of_accepted line.accepted _ rfl]
  dsimp only
  rw [linePreparse_key line.accepted]
  rfl

theorem mget_of_not_checked (input : MetaInput)
    (bad : ¬(Checked sup t ∧ t.ntokens ≠ 3)) : (processMgetCommand sup s t input).2 = s := by
  rw [processMgetCommand]
  split
  · rfl
  split
  · rfl
  split
  · rfl
  split
  · rfl
  · rename_i words short few _ p ran
    rw [not_or] at short
    exact absurd ⟨⟨words, short.1, few, (metaFlagPreparse_iff.mp ran).2.1⟩, short.2⟩ bad

theorem mdeleteItem_status {fields : List MetaField} {str : String} :
    (mdeleteItem s key of fields).1.status ≠ .clientError str := by
  rw [mdeleteItem]
  split
  · exact Status.noConfusion
  · dsimp only
    split
    · exact Status.noConfusion
    · split <;> exact Status.noConfusion

theorem mdelete_clientError {str : String} :
    (processMdeleteCommand sup s t).1.status = .clientError str →
      (processMdeleteCommand sup s t).2 = s := by
  rw [processMdeleteCommand]
  split
  · exact fun _ => rfl
  split
  · exact fun _ => rfl
  split
  · exact fun _ => rfl
  split
  · exact fun _ => rfl
  split
  · exact fun _ => rfl
  · exact fun error => absurd error mdeleteItem_status

theorem math_of_checked (line : Checked sup t) {incr : Bool}
    (mode : mathMode (lineMode t) = some incr) (s : State) (input : MathInput) :
    processMarithmeticCommand sup s t input =
      mathItem s (lineKey sup (t.word 1) (flagTokens t))
        (linePreparse sup s.currentTime (t.word 1) { delta := 1 } (flagTokens t)).flags incr
        (flagTokens t) input := by
  rw [processMarithmeticCommand, if_neg line.words, if_neg line.short, if_neg line.few,
    preparse_of_accepted line.accepted _ rfl]
  dsimp only
  rw [linePreparse_mode line.accepted _ rfl, linePreparse_key line.accepted]
  rw [lineMode] at mode
  rw [mode]

theorem math_of_not_checked (input : MathInput)
    (bad : ¬(Checked sup t ∧ (mathMode (lineMode t)).isSome)) :
    (processMarithmeticCommand sup s t input).2 = s := by
  rw [processMarithmeticCommand]
  split
  · rfl
  split
  · rfl
  split
  · rfl
  split
  · rfl
  split
  · rfl
  rename_i words short few _ p ran _ incr mode
  obtain ⟨-, accepted, rfl⟩ := metaFlagPreparse_iff.mp ran
  have line : Checked sup t := ⟨words, short, few, accepted⟩
  have same : ((flagTokens t).foldl (applyFlag sup s.currentTime)
      (preparseStart (t.word 1) { delta := 1 })).flags.mode = lineMode t :=
    linePreparse_mode line.accepted s.currentTime rfl
  rw [same] at mode
  exact absurd ⟨line, by rw [mode]; rfl⟩ bad

/-- For every store whose table is in order and has a reference to each item, and for every
line: a command with an error of the client changes something exactly if its error is that for
the opaque token and what came before it shows. -/
theorem harmless_iff (sup : Supply) (orderly : Orderly s)
    (counted : ∀ key p, s.assoc key = some p → 0 < (s.heap p).refcount) (t : Tokens)
    (input : Input) (cmd : Command) :
    Harmless s (cmd.run sup s t input) ↔ ¬Changes sup s t input cmd := by
  cases cmd with
  | md =>
    refine iff_of_true ?_ not_false
    intro str error key
    rw [show (Command.md.run sup s t input).2 = s from mdelete_clientError error]
  | mg =>
    by_cases line : Overlong sup t
    · have times := fun token => @linePreparse_number _ _ {} _ line.accepted s.currentTime token
      rw [Command.run, mget_of_checked line.toChecked line.more, Changes]
      refine (mgetItem_harmless_iff times line.overlong orderly input.get).trans ?_
      simp only [line, true_and]
      rfl
    refine iff_of_true ?_ fun changes => line changes.1
    by_cases checked : Checked sup t ∧ t.ntokens ≠ 3
    · have fits : (flagTokens t).any opaqueTooLong = false :=
        Bool.eq_false_iff.mpr fun long => line ⟨checked.1, long⟩
      rw [Command.run, mget_of_checked checked.1 checked.2]
      exact harmless_of_status fun _ => mgetItem_status (((sees_mgetFlag _).any _).trans fits)
    · intro _ _ key
      rw [Command.run, mget_of_not_checked input.get checked]
  | ma =>
    cases mode : mathMode (lineMode t) with
    | none =>
      refine iff_of_true (fun _ _ key => ?_) ?_
      · rw [Command.run, math_of_not_checked input.math fun both => by simp [mode] at both]
      · rintro ⟨-, incr, known, -⟩
        cases mode.symm.trans known
    | some incr =>
      by_cases checked : Checked sup t
      · rw [Command.run, math_of_checked checked mode]
        by_cases long : (flagTokens t).any opaqueTooLong = true
        · have times := fun token =>
            @linePreparse_number _ _ { delta := 1 } _ checked.accepted s.currentTime token
          refine (mathItem_harmless_iff times (linePreparse_vivify checked.accepted _ rfl) long
            orderly (counted _) incr input.math).trans ?_
          have line : Overlong sup t := ⟨checked, long⟩
          simp only [Changes, line, mode, Option.some.injEq, exists_eq_left', true_and]
          rfl
        · exact iff_of_true (mathItem_harmless orderly (Bool.eq_false_iff.mpr long))
            fun changes => long changes.1.overlong
      · refine iff_of_true (fun _ _ key => ?_) fun changes => checked changes.1.toChecked
        rw [Command.run, math_of_not_checked input.math fun both => checked both.1]

/-- An item with an expiry, a unique and a value. -/
def plainItem (key : Key) (exptime cas : Nat) (data : List UInt8) : Item :=
  { noItem with key, exptime, cas, data, linked := true, refcount := 1 }

/-- `mg k T100 O…` with 32 bytes after the letter, for an item that expires then anyway. -/
theorem harmless_iff_sample : let sup : Supply := ⟨1700000000, fun _ _ => none, id⟩
    let s := single (plainItem [107] 162 1 [49, 13, 10])
    let t := tokenizeCommand (text "mg k T100 Oxxxxxxxxxxxxxxxxxxxxxxxxxxxxxxxx")
    let input : Input := ⟨⟨none, false, false⟩, none, false, none, none, false, fun _ => 0⟩
    (Command.mg.run sup s t input).1.status = .clientError "CLIENT_ERROR opaque token too long" ∧
      Harmless s (Command.mg.run sup s t input) := by
  intro sup s t input
  refine ⟨by decide +kernel, ?_⟩
  have orderly : Orderly s := Orderly.single rfl rfl
  have counted : ∀ key p, s.assoc key = some p → 0 < (s.heap p).refcount :=
    fun _ _ _ => Nat.one_pos
  rw [harmless_iff sup orderly counted]
  rintro ⟨-, changes⟩
  have live : liveItem s (lineTarget sup t) = some 0 := by decide +kernel
  rw [MgetChanges, live] at changes
  exact changes.2 (by decide +kernel)

/-- `mg k T100 O…` with 32 bytes after the letter is an error of the client, and the item expires
now. -/
theorem late_error_touches : let sup : Supply := ⟨1700000000, fun _ _ => none, id⟩
    let s := single (plainItem [107] 0 1 [49, 13, 10])
    let after := processMgetCommand sup s
      (tokenizeCommand (text "mg k T100 Oxxxxxxxxxxxxxxxxxxxxxxxxxxxxxxxx")) ⟨none, false, false⟩
    after.1.status = .clientError "CLIENT_ERROR opaque token too long" ∧
      (look s [107]).map Face.exptime = some 0 ∧
      (look after.2 [107]).map Face.exptime = some 162 := by
  decide +kernel

end Kvsev.Meta
