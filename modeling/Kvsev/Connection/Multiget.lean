import Kvsev.Connection.Session
import Kvsev.Connection.Tokenizer

/-!
# Many keys in one line

`process_get_command` calls the tokenizer again for as long as the last token points at more of
the line. However the line is spaced, and wherever one call ends and the next begins, the words
are those that lie between its spaces; each is looked up once, in their order, and the last
response ends the reply.
-/

namespace Kvsev.Connection

open Memory Server

/-- The maximal runs of bytes other than spaces. -/
def runs (line : List UInt8) : List (List UInt8) := (line.splitOn 32).filter (· ≠ [])

/-! ## Nothing is lost between two calls of the tokenizer -/

/-- The same where a run has already begun. -/
def runsFrom (word bytes : List UInt8) : List (List UInt8) :=
  ((bytes.splitOn 32).modifyHead (word ++ ·)).filter (· ≠ [])

theorem runsFrom_empty (bytes : List UInt8) : runsFrom [] bytes = runs bytes := by
  rw [runsFrom, runs]
  cases bytes.splitOn 32 <;> rfl

theorem runsFrom_nil (word : List UInt8) : runsFrom word [] = if word = [] then [] else [word] := by
  by_cases empty : word = [] <;> simp [runsFrom, empty]

theorem runsFrom_space (word bytes : List UInt8) :
    runsFrom word (32 :: bytes) = if word = [] then runs bytes else word :: runs bytes := by
  by_cases empty : word = [] <;>
    simp [runsFrom, runs, List.splitOn_cons_eq_if_modifyHead, empty]

theorem runsFrom_byte {b : UInt8} (word bytes : List UInt8) (byte : b ≠ 32) :
    runsFrom word (b :: bytes) = runsFrom (word ++ [b]) bytes := by
  simp [runsFrom, List.splitOn_cons_eq_if_modifyHead, byte, List.modifyHead_modifyHead,
    Function.comp_def]

theorem tokenizeLoop_runs (room : Nat) (word bytes : List UInt8) :
    (tokenizeLoop room word bytes).words ++
      runs ((tokenizeLoop room word bytes).rest.getD []) = runsFrom word bytes := by
  induction bytes generalizing room word with
  | nil =>
    rw [tokenizeLoop, runsFrom_nil]
    exact List.append_nil _
  | cons b bytes ih =>
    rw [tokenizeLoop]
    by_cases space : b = 32
    · subst space
      rw [if_pos rfl, runsFrom_space]
      by_cases empty : word = []
      · rw [if_pos empty, if_pos empty, ih, runsFrom_empty]
      rw [if_neg empty, if_neg empty]
      by_cases full : room = 1
      · rw [if_pos full]
        by_cases last : bytes = []
        · rw [if_pos last, last]
          rfl
        · rw [if_neg last]
          rfl
      · rw [if_neg full, List.cons_append, ih, runsFrom_empty]
    · rw [if_neg space, ih, runsFrom_byte _ _ space]

theorem tokenizeLoop_rest_suffix {room : Nat} {word bytes line : List UInt8}
    (rest : (tokenizeLoop room word bytes).rest = some line) : line <:+ bytes := by
  induction bytes generalizing room word with
  | nil => cases rest
  | cons b bytes ih =>
    refine List.IsSuffix.trans ?_ (List.suffix_cons b bytes)
    rw [tokenizeLoop] at rest
    split at rest
    · split at rest
      · exact ih rest
      split at rest
      · simp only at rest
        split at rest
        · cases rest
        · exact Option.some.inj rest ▸ List.suffix_rfl
      · exact ih rest
    · exact ih rest

section

variable {line : List UInt8}

theorem tokenizeCommand_runs (nonzero : 0 ∉ line) :
    (tokenizeCommand line).words ++ runs ((tokenizeCommand line).rest.getD []) = runs line := by
  rw [tokenizeCommand, takeWhile_of_nonzero nonzero, tokenizeLoop_runs, runsFrom_empty]

theorem tokenizeCommand_rest_nonzero : 0 ∉ (tokenizeCommand line).rest.getD [] := by
  cases rest : (tokenizeCommand line).rest with
  | none => simp
  | some more =>
    intro mem
    have inside := (tokenizeLoop_rest_suffix rest).subset mem
    simpa using List.mem_takeWhile_imp inside

/-- The calls of the tokenizer together find the runs. -/
theorem keysOf_runs {more : Nat} (keys : List Key) {rest : Option (List UInt8)}
    (enough : (rest.getD []).length ≤ more) (nonzero : 0 ∉ rest.getD []) :
    keysOf more keys rest = keys ++ runs (rest.getD []) := by
  induction more generalizing keys rest with
  | zero =>
    rw [List.eq_nil_of_length_eq_zero (Nat.le_zero.mp enough), keysOf]
    · exact (List.append_nil keys).symm
    · exact fun _ _ absurd => Nat.noConfusion absurd
  | succ more ih =>
    cases rest with
    | none => exact (List.append_nil keys).symm
    | some line =>
      rw [Option.getD_some] at enough nonzero ⊢
      rw [keysOf, ih _ ?_ tokenizeCommand_rest_nonzero, tokenizeCommand_runs nonzero]
      by_cases empty : line = []
      · subst empty
        exact Nat.zero_le _
      · have := tokenizeCommand_max empty
        omega

end

/-- What the client sees of the items that are found. -/
def shownItems (hits : List (Option Hit)) : List UInt8 :=
  hits.reduceOption.flatMap fun hit => hit.line ++ hit.value.bytes

/-- The end of the reply is sent once, with the last response. -/
theorem unsent_getResps {hits : List (Option Hit)} (nonempty : hits ≠ []) :
    unsent (getResps hits) = shownItems hits ++ (text "END" ++ crlf) := by
  induction hits with
  | nil => exact absurd rfl nonempty
  | cons hit hits ih =>
    cases hits with
    | nil =>
      cases hit with
      | none =>
        simp [getResps, unsent, Resp.ofLastKey, Resp.outString, Resp.bytes, Iov.bytes, shownItems]
      | some item =>
        simp [getResps, unsent, Resp.ofLastKey, Resp.bytes, Iov.bytes, shownItems,
          List.reduceOption]
    | cons other hits =>
      rw [getResps, unsent_cons, ih (List.cons_ne_nil _ _)]
      · cases hit with
        | none => simp [Resp.ofKey, Resp.empty, Resp.bytes, shownItems, List.reduceOption]
        | some item => simp [Resp.ofKey, Resp.bytes, Iov.bytes, shownItems, List.reduceOption]
      · exact fun absurd => List.cons_ne_nil _ _ absurd

/-! ## The loops in memory -/

section

variable {σ ρ : Type} (h : Handlers σ ρ) (returnCas : Bool) (touch : Option Nat)

/-- The inner loop of `process_get_command`; `keyToken` is an index. Where a key is not too
long, the place the loop has come to is returned as well. -/
def keyLoop (mem : Block UInt8) (tokens : Block Token) :
    Nat → σ → Nat → Exec (Except (List (Option Hit)) (List (Option Hit) × Nat) × σ)
  | 0, _, _ => throw .invalidAccess
  | more + 1, s, keyToken => do
    let token ← tokens.get keyToken
    if token.length = 0 then return (.ok ([], keyToken), s)
    else if keyMaxLength < token.length then return (.error [], s)
    else
      let key ← token.read mem
      let (hit, s) := h.lookup s returnCas touch key
      let (found, s) ← keyLoop mem tokens more s (keyToken + 1)
      return (match found with
        | .error hits => .error (hit :: hits)
        | .ok (hits, keyToken) => .ok (hit :: hits, keyToken), s)

/-- The outer loop. The responses of a batch are those of its keys; one without keys has the
response it was begun with. -/
def batchLoop : Nat → Block UInt8 → Block Token → σ → Nat → Exec (Found × σ)
  | 0, _, _, _, _ => throw .invalidAccess
  | more + 1, mem, tokens, s, keyToken => do
    match ← keyLoop h returnCas touch mem tokens maxTokens s keyToken with
    | (.error hits, s) => return (.error hits, s)
    | (.ok (hits, keyToken), s) =>
      let hits := if hits = [] then [none] else hits
      let token ← tokens.get keyToken
      match token.value with
      | none => return (.ok hits, s)
      | some p =>
        let t ← tokenizeMemory p mem tokens
        let first ← t.tokens.get 0
        if first.value = none then return (.ok (hits ++ [none]), s)
        else
          let (later, s) ← batchLoop more t.mem t.tokens s 0
          return (Found.after hits later, s)

/-- A call of `process_command` that comes to `process_get_command`. -/
def getInMemory (s : σ) (returnCas touch : Bool) (mem : Block UInt8) (tokens : Block Token)
    (command : Nat) : Exec (Effect ρ × σ) := do
  let t ← tokenizeMemory command mem tokens
  if touch then
    let token ← t.tokens.get 1
    match h.exptime s (← token.string t.mem) with
    | none =>
      let resp := Resp.outString false (text "CLIENT_ERROR invalid exptime argument")
      return (.answer [resp] false, s)
    | some exptime =>
      let (found, s) ← batchLoop h returnCas (some exptime) mem.size t.mem t.tokens s 2
      return (getEffect found, s)
  else
    let (found, s) ← batchLoop h returnCas none mem.size t.mem t.tokens s 1
    return (getEffect found, s)

variable {mem : Block UInt8} {tokens : Block Token} {keys : List Key}
  {rest : Option (List UInt8)} {n : Nat}

theorem keyLoop_eq {more : Nat} (s : σ) (found : Represents mem tokens n ⟨keys, rest⟩)
    (inside : n + keys.length < tokens.size) (enough : keys.length < more) :
    keyLoop h returnCas touch mem tokens more s n =
      .ok ((getKeys h returnCas touch s keys).1.map (·, n + keys.length),
        (getKeys h returnCas touch s keys).2) := by
  induction keys generalizing s n more with
  | nil =>
    obtain ⟨more, rfl⟩ := Nat.exists_eq_add_one.mpr enough
    have lt : n < tokens.size := inside
    rw [keyLoop, Block.get_of_lt lt, Exec.ok_bind]
    exact if_pos found.terminal.length
  | cons key keys ih =>
    obtain ⟨more, rfl⟩ := Nat.exists_eq_add_one.mpr (Nat.zero_lt_of_lt enough)
    obtain ⟨first, later⟩ := found.uncons
    rw [List.length_cons] at inside enough
    have some_ : ¬(tokens.cell n).length = 0 := by
      rw [first.length]
      exact first.nonempty ∘ List.eq_nil_of_length_eq_zero
    rw [keyLoop, Block.get_of_lt (by omega), Exec.ok_bind, if_neg some_, first.length, getKeys]
    by_cases long : keyMaxLength < key.length
    · rw [if_pos long, if_pos long]
      rfl
    · rw [if_neg long, if_neg long, first.read, Exec.ok_bind]
      have next (s' : σ) := @ih (n + 1) more s' later (by omega) (Nat.lt_of_succ_lt_succ enough)
      have place : n + 1 + keys.length = n + (key :: keys).length := Nat.add_right_comm ..
      simp only [next, Exec.ok_bind, place]
      cases (getKeys h returnCas touch (h.lookup s returnCas touch key).2 keys).1 with
      | error hits => rfl
      | ok hits => rfl

theorem tokenizeLoop_words_le {room : Nat} (pos : 0 < room) (word bytes : List UInt8) :
    (tokenizeLoop room word bytes).words.length ≤ room := by
  induction bytes generalizing room word with
  | nil =>
    rw [tokenizeLoop]
    split
    · exact Nat.zero_le _
    · exact pos
  | cons b bytes ih =>
    rw [tokenizeLoop]
    split
    · split
      · exact ih pos []
      split
      · exact pos
      · have later : (tokenizeLoop (room - 1) [] bytes).words.length ≤ room - 1 :=
          ih (by omega) []
        simp only [List.length_cons]
        omega
    · exact ih pos _

theorem tokenizeCommand_words_lt (line : List UInt8) :
    (tokenizeCommand line).words.length < maxTokens :=
  Nat.lt_succ_of_le (tokenizeLoop_words_le (by decide) _ _)

theorem getBatch_of_found {s s' : σ} {hits : List (Option Hit)}
    (found : getKeys h returnCas touch s keys = (.ok hits, s')) :
    getBatch h returnCas touch s keys = (.ok (if hits = [] then [none] else hits), s') := by
  have length := length_getKeys (congrArg Prod.fst found)
  cases keys with
  | nil =>
    cases found
    rfl
  | cons key keys =>
    have some_ : hits ≠ [] := List.ne_nil_of_length_eq_add_one length
    rw [getBatch, if_neg (List.cons_ne_nil _ _), found, if_neg some_]

theorem getBatch_of_long {s s' : σ} {hits : List (Option Hit)}
    (found : getKeys h returnCas touch s keys = (.error hits, s')) :
    getBatch h returnCas touch s keys = (.error hits, s') := by
  cases keys with
  | nil => cases found
  | cons key keys => rw [getBatch, if_neg (List.cons_ne_nil _ _), found]

theorem getBatches_none (fuel : Nat) (s : σ) :
    getBatches h returnCas touch fuel s keys none = getBatch h returnCas touch s keys := by
  cases fuel with
  | zero => rfl
  | succ fuel => rcases batch : getBatch h returnCas touch s keys with ⟨_ | _, _⟩ <;>
      simp only [getBatches, batch]

/-- The batch that reaches the end of the line. -/
theorem batchLoop_last {more : Nat} (s : σ) (found : Represents mem tokens n ⟨keys, none⟩)
    (inside : n + keys.length < tokens.size) (enough : keys.length < maxTokens) :
    batchLoop h returnCas touch (more + 1) mem tokens s n =
      .ok (getBatch h returnCas touch s keys) := by
  have last : (tokens.cell (n + keys.length)).value = none := found.terminal.value
  rw [batchLoop, keyLoop_eq h returnCas touch s found inside enough, Exec.ok_bind]
  rcases read : getKeys h returnCas touch s keys with ⟨hits | hits, s'⟩
  · rw [getBatch_of_long h returnCas touch read]
    rfl
  · rw [getBatch_of_found h returnCas touch read]
    simp only [Except.map, Block.get_of_lt inside, Exec.ok_bind, last]
    rfl

/-- Whether the next call of the tokenizer has found a word. -/
theorem Represents.first_value {t : Tokens} (found : Represents mem tokens 0 t)
    (rest : t.words = [] → t.rest = none) : (tokens.cell 0).value = none ↔ t.words = [] := by
  obtain ⟨_ | ⟨word, words⟩, rest'⟩ := t
  · obtain rfl := rest rfl
    exact iff_of_true found.terminal.value rfl
  · obtain ⟨p, value, -⟩ := found.uncons.1.value
    exact iff_of_false (by rw [value]; exact Option.some_ne_none p) (List.cons_ne_nil _ _)

theorem tokenizeCommand_rest_none {line : List UInt8} (none : (tokenizeCommand line).words = []) :
    (tokenizeCommand line).rest = .none := by
  by_contra some_
  exact (tokenizeLoop_rest some_).1 none

/-- The loops in memory are those over the words. -/
theorem batchLoop_eq {fuel more : Nat} (s : σ) (found : Represents mem tokens n ⟨keys, rest⟩)
    (size : tokens.size = maxTokens) (inside : n + keys.length < maxTokens)
    (nonempty : rest ≠ some []) (enough : (rest.getD []).length ≤ fuel) (rounds : fuel < more) :
    batchLoop h returnCas touch more mem tokens s n =
      .ok (getBatches h returnCas touch fuel s keys rest) := by
  induction fuel generalizing s n mem tokens keys rest more with
  | zero =>
    obtain ⟨more, rfl⟩ := Nat.exists_eq_add_one.mpr rounds
    cases rest with
    | none =>
      rw [getBatches_none]
      exact batchLoop_last h returnCas touch s found (size ▸ inside) (by omega)
    | some line =>
      exact absurd (congrArg some (List.eq_nil_of_length_eq_zero (Nat.le_zero.mp enough))) nonempty
  | succ fuel ih =>
    obtain ⟨more, rfl⟩ := Nat.exists_eq_add_one.mpr (Nat.zero_lt_of_lt rounds)
    cases rest with
    | none =>
      rw [getBatches_none]
      exact batchLoop_last h returnCas touch s found (size ▸ inside) (by omega)
    | some line =>
      have lt : n + keys.length < tokens.size := size ▸ inside
      obtain ⟨p, value, str⟩ : ∃ p, (tokens.cell (n + keys.length)).value = some p ∧
          CString mem p line := found.terminal.value
      rw [batchLoop, keyLoop_eq h returnCas touch s found lt (by omega), Exec.ok_bind]
      rcases read : getKeys h returnCas touch s keys with ⟨hits | hits, s'⟩
      · simp only [getBatches, getBatch_of_long h returnCas touch read]
        rfl
      obtain ⟨t, ran, finds⟩ := tokenizeMemory_finds str size
      have tokens_size : t.tokens.size = maxTokens := finds.tokens_size.trans size
      have first : t.tokens.get 0 = .ok (t.tokens.cell 0) :=
        Block.get_of_lt (by rw [tokens_size]; decide)
      simp only [getBatches, getBatch_of_found h returnCas touch read, Except.map,
        Block.get_of_lt lt, Exec.ok_bind, value, ran, first]
      have shorter := tokenizeCommand_max fun empty => nonempty (congrArg some empty)
      rw [Option.getD_some] at enough
      by_cases none : (tokenizeCommand line).words = []
      · -- nothing but spaces was left
        rw [if_pos ((finds.represents.first_value tokenizeCommand_rest_none).mpr none),
          tokenizeCommand_rest_none none, none, getBatches_none]
        rfl
      have words := tokenizeCommand_words_lt line
      have next : Represents t.mem t.tokens 0
        ⟨(tokenizeCommand line).words, (tokenizeCommand line).rest⟩ := finds.represents
      rw [if_neg (none ∘ (finds.represents.first_value tokenizeCommand_rest_none).mp),
        ih s' next tokens_size (by omega) tokenizeCommand_rest (by omega) (by omega)]
      rfl

theorem ite_ne {c : Prop} [Decidable c] {r r' q : Request} (pos : r ≠ q)
    (neg : r' ≠ q) : (if c then r else r') ≠ q := by
  split
  · exact pos
  · exact neg

/-- A `get` line has an argument. -/
theorem two_le_of_get {t : Tokens} {returnCas touch : Bool}
    (get : dispatch t = .get returnCas touch) : 2 ≤ t.words.length := by
  obtain ⟨words, rest⟩ := t
  match words with
  | [] => cases get
  | [command] =>
    refine absurd get ?_
    have few (r : Request) : wantTokensMin 2 3 r ≠ .get returnCas touch := Request.noConfusion
    unfold dispatch metaRequest wantTokensOr wantTokens
    dsimp only
    repeat' first
      | exact few _
      | exact Request.noConfusion
      | refine ite_ne ?_ ?_
  | _ :: _ :: _ => exact Nat.le_add_left ..

/-- What is left of a line once its first words are taken away. -/
theorem Represents.drop {t : Tokens} (found : Represents mem tokens n t) {k : Nat}
    (le : k ≤ t.words.length) :
    Represents mem tokens (n + k) ⟨t.words.drop k, t.rest⟩ := by
  refine ⟨fun i word here => ?_, ?_⟩
  · rw [Nat.add_assoc]
    exact found.words (k + i) word (List.getElem?_drop ▸ here)
  · have place : n + k + (t.words.drop k).length = n + t.words.length := by
      rw [List.length_drop]
      omega
    exact place ▸ found.terminal

/-- The whole command: no access fails, and the result is that of the model over words. -/
theorem getInMemory_eq (s : σ) {returnCas touch : Bool} {p : Nat} {command : List UInt8}
    (str : CString mem p command) (size : tokens.size = maxTokens)
    (words : 2 ≤ (tokenizeCommand command).words.length) :
    getInMemory h s returnCas touch mem tokens p =
      .ok (processGetCommand h s returnCas touch (tokenizeCommand command)) := by
  obtain ⟨t, ran, finds⟩ := tokenizeMemory_finds str size
  have tokens_size : t.tokens.size = maxTokens := finds.tokens_size.trans size
  have found : Represents t.mem t.tokens 0 (tokenizeCommand command) := finds.represents
  have most := tokenizeCommand_words_lt command
  have rounds : ((tokenizeCommand command).rest.getD []).length < mem.size := by
    have shorter := tokenizeCommand_size command
    have inside := str.inside
    omega
  have loops (k : Nat) (le : k ≤ 2) (exptime : Option Nat) :
      batchLoop h returnCas exptime mem.size t.mem t.tokens s k =
        .ok (getBatches h returnCas exptime ((tokenizeCommand command).rest.getD []).length s
          ((tokenizeCommand command).words.drop k) (tokenizeCommand command).rest) := by
    have later := found.drop (Nat.le_trans le words)
    rw [Nat.zero_add] at later
    refine batchLoop_eq h returnCas exptime s later tokens_size ?_ tokenizeCommand_rest
      (Nat.le_refl _) rounds
    rw [List.length_drop]
    omega
  rw [getInMemory, ran, Exec.ok_bind, processGetCommand]
  cases touch with
  | false =>
    rw [if_neg Bool.false_ne_true, if_neg Bool.false_ne_true, loops 1 (by omega), Exec.ok_bind]
    rfl
  | true =>
    have second : t.tokens.get 1 = .ok (t.tokens.cell 1) :=
      Block.get_of_lt (by rw [tokens_size]; decide)
    obtain ⟨word, here⟩ : ∃ word, (tokenizeCommand command).words[1]? = some word :=
      ⟨_, List.getElem?_eq_getElem (by omega)⟩
    have string : (t.tokens.cell 1).string t.mem = .ok word := (found.words 1 word here).string
    rw [if_pos rfl, if_pos rfl, second, Exec.ok_bind, string, Exec.ok_bind, here, Option.getD_some]
    cases h.exptime s word with
    | none => rfl
    | some exptime =>
      simp only [loops 2 (Nat.le_refl _), Exec.ok_bind]
      rfl

end

section

variable {σ ρ : Type} {h : Handlers σ ρ} {mem : Block UInt8} {tokens : Block Token} {p : Nat}
  {command : List UInt8} {returnCas touch : Bool}

/-- The time that is read from a `gat` line; the other lines have none. -/
def expiryOf (h : Handlers σ ρ) (s : σ) (touch : Bool) (words : List (List UInt8)) :
    Option (Option Nat) :=
  if touch then (h.exptime s (words[1]?.getD [])).map some else some none

/-- The calls of the tokenizer for a line together find the runs of bytes other than spaces, and
the command never leaves the array or the line. Where the time of a `gat` can be read and no key
is too long, each of the keys is looked up once and in order; the reply has what is found and
ends once. -/
theorem multiget_exact (s : σ) (str : CString mem p command) (size : tokens.size = maxTokens)
    (get : dispatch (tokenizeCommand command) = .get returnCas touch) :
    keysOf command.length (tokenizeCommand command).words (tokenizeCommand command).rest =
        runs command ∧
      getInMemory h s returnCas touch mem tokens p =
        .ok (processGetCommand h s returnCas touch (tokenizeCommand command)) ∧
      ∀ exptime, expiryOf h s touch (runs command) = some exptime →
        let keys := (runs command).drop (if touch then 2 else 1)
        (∀ key ∈ keys, key.length ≤ keyMaxLength) →
        ∃ resps, getInMemory h s returnCas touch mem tokens p =
            .ok (.answer resps true, (lookups h returnCas exptime s keys).2) ∧
          unsent resps =
            shownItems (lookups h returnCas exptime s keys).1 ++ (text "END" ++ crlf) := by
  have words := two_le_of_get get
  have parts := tokenizeCommand_runs str.nonzero
  have length := tokenizeCommand_size command
  have second : (runs command)[1]? = (tokenizeCommand command).words[1]? := by
    rw [← parts, List.getElem?_append_left (by omega)]
  have keys {k : Nat} (le : k ≤ 2) :
      keysOf ((tokenizeCommand command).rest.getD []).length
        ((tokenizeCommand command).words.drop k) (tokenizeCommand command).rest =
        (runs command).drop k := by
    rw [keysOf_runs _ (Nat.le_refl _) tokenizeCommand_rest_nonzero, ← parts,
      List.drop_append_of_le_length (by omega)]
  refine ⟨?_, getInMemory_eq h s str size words, fun exptime expiry => ?_⟩
  · rw [keysOf_runs _ (by omega) tokenizeCommand_rest_nonzero, parts]
  intro asked short
  rw [getInMemory_eq h s str size words, processGetCommand]
  cases touch with
  | false =>
    obtain rfl : none = exptime := Option.some.inj expiry
    have one := keys (Nat.le_succ 1)
    obtain ⟨hits, found, nonempty, shown⟩ := getBatches_shows h returnCas none s
      fun key mem => short key (show key ∈ (runs command).drop 1 from one ▸ mem)
    rw [one] at found shown
    rw [if_neg Bool.false_ne_true, getAll, found]
    refine ⟨getResps hits, rfl, ?_⟩
    rw [unsent_getResps nonempty, shownItems, shown]
    rfl
  | true =>
    obtain ⟨time, parsed, rfl⟩ := Option.map_eq_some_iff.mp expiry
    have two := keys (Nat.le_refl 2)
    obtain ⟨hits, found, nonempty, shown⟩ := getBatches_shows h returnCas (some time) s
      fun key mem => short key (show key ∈ (runs command).drop 2 from two ▸ mem)
    rw [two] at found shown
    rw [if_pos rfl, ← second, parsed]
    simp only [getAll, found]
    refine ⟨getResps hits, rfl, ?_⟩
    rw [unsent_getResps nonempty, shownItems, shown]
    rfl

end

/-- A server that finds no item and keeps the keys it is asked for. -/
def keyLog : Handlers (List Key) Unit :=
  { plainServer (.upload () 1) "NOT_FOUND" with lookup := fun s _ _ key => (none, s ++ [key]) }

/-- Thirty keys of one letter, with two spaces before each and some at the end. -/
def spacedGet : List UInt8 :=
  text "get" ++ (List.range 30).flatMap (fun i => [32, 32, UInt8.ofNat (97 + i)]) ++ [32, 32]

theorem multiget_exact_spacedGet : let mem : Block UInt8 := .ofList (spacedGet ++ [0])
    ∃ resps, getInMemory keyLog [] false false mem ⟨maxTokens, fun _ => ⟨none, 0⟩⟩ 0 =
        .ok (.answer resps true, (List.range 30).map fun i => [UInt8.ofNat (97 + i)]) ∧
      unsent resps = text "END" ++ crlf := by
  intro mem
  have str : CString mem 0 spacedGet :=
    ⟨by decide +kernel, by decide +kernel, by decide +kernel, by decide +kernel⟩
  have get : dispatch (tokenizeCommand spacedGet) = .get false false := by decide +kernel
  have short : ∀ key ∈ (runs spacedGet).drop 1, key.length ≤ keyMaxLength := by decide +kernel
  have asked : (lookups keyLog false none [] ((runs spacedGet).drop 1)).2 =
      (List.range 30).map fun i => [UInt8.ofNat (97 + i)] := by decide +kernel
  have missed : shownItems (lookups keyLog false none [] ((runs spacedGet).drop 1)).1 = [] := by
    decide +kernel
  obtain ⟨-, -, answered⟩ := @multiget_exact _ _ keyLog mem ⟨maxTokens, fun _ => ⟨none, 0⟩⟩ 0
    spacedGet false false [] str rfl get
  obtain ⟨resps, ran, sent⟩ := answered none rfl short
  refine ⟨resps, ?_, ?_⟩
  · rw [← asked]
    exact ran
  · refine sent.trans ?_
    exact congrArg (· ++ (text "END" ++ crlf)) missed

end Kvsev.Connection
