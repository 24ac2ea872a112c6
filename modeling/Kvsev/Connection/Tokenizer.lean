import Kvsev.Connection.Line
import Kvsev.Memory.Bytes
import Kvsev.Memory.Copies
import Mathlib.Data.List.TakeWhile

/-!
# `tokenize_command` in memory

The tokenizer ends every word with a zero in the buffer itself and keeps the words in an array
of fixed size. If the array is full before the line is, the last token points at what is left.
Every access is checked; that none fails is part of what is shown here.
-/

namespace Kvsev.Connection

open Memory

/-- `token_t`; pointers are offsets into the buffer. -/
structure Token where
  value : Option Nat
  length : Nat
  deriving DecidableEq, Repr

/-- `strlen`. The first number bounds the bytes that are looked at. -/
def strlen (mem : Block UInt8) : Nat → Nat → Exec Nat
  | 0, _ => throw .invalidAccess
  | more + 1, p => do
    let c ← mem.get p
    if c = 0 then return 0
    else
      let n ← strlen mem more (p + 1)
      return n + 1

/-- The variables of `tokenize_command`, with the memory it works on. -/
structure Scan where
  s : Nat
  e : Nat
  ntokens : Nat
  mem : Block UInt8
  tokens : Block Token

namespace Scan

/-- Another token, from `s` to `e`. -/
def addWord (t : Scan) : Exec Scan := do
  let tokens ← t.tokens.set t.ntokens ⟨some t.s, t.e - t.s⟩
  return { t with tokens, ntokens := t.ntokens + 1 }

/-- The token that points at what is left of the line. -/
def addTerminal (t : Scan) : Exec Scan := do
  let c ← t.mem.get t.e
  let tokens ← t.tokens.set t.ntokens ⟨if c = 0 then none else some t.e, 0⟩
  return { t with tokens, ntokens := t.ntokens + 1 }

/-- The zero behind a word. -/
def endWord (t : Scan) : Exec Scan := do
  let mem ← t.mem.set t.e 0
  return { t with mem, s := t.e + 1, e := t.e + 1 }

/-- The loop, with the number of bytes that are left. The counter of the source does not wrap:
the size of a read buffer is an `int`. -/
def loop : Nat → Scan → Exec Scan
  | 0, t => return t
  | left + 1, t => do
    let c ← t.mem.get t.e
    if c = 32 then
      if t.s ≠ t.e then
        let t ← t.addWord
        let t ← t.endWord
        if t.ntokens = maxTokens - 1 then return t else loop left t
      else loop left { t with s := t.e + 1, e := t.e + 1 }
    else loop left { t with e := t.e + 1 }

/-- What follows the loop. -/
def finish (t : Scan) : Exec Scan :=
  if t.s ≠ t.e then do
    let t ← t.addWord
    t.addTerminal
  else t.addTerminal

end Scan

/-- `tokenize_command` -/
def tokenizeMemory (command : Nat) (mem : Block UInt8) (tokens : Block Token) : Exec Scan := do
  let len ← strlen mem mem.size command
  let t ← Scan.loop len ⟨command, command, 0, mem, tokens⟩
  t.finish

/-- The bytes of a token. -/
def Token.read (mem : Block UInt8) (token : Token) : Exec (List UInt8) := do
  let p ← Exec.access token.value
  if p + token.length ≤ mem.size then return mem.slice p token.length else throw .invalidAccess

/-- The string that a token points at. -/
def Token.string (mem : Block UInt8) (token : Token) : Exec (List UInt8) := do
  let p ← Exec.access token.value
  let n ← strlen mem mem.size p
  return mem.slice p n

/-! ## What is in memory -/

/-- A string of C. -/
structure CString (mem : Block UInt8) (p : Nat) (bytes : List UInt8) : Prop where
  inside : p + bytes.length < mem.size
  shows : mem.slice p bytes.length = bytes
  zero : mem.cell (p + bytes.length) = 0
  nonzero : 0 ∉ bytes

/-- A token that is a word. The word is a string of its own. -/
structure WordToken (mem : Block UInt8) (token : Token) (word : List UInt8) : Prop where
  length : token.length = word.length
  nonempty : word ≠ []
  value : ∃ p, token.value = some p ∧ CString mem p word

/-- The last token. -/
structure TerminalToken (mem : Block UInt8) (token : Token) (rest : Option (List UInt8)) :
    Prop where
  length : token.length = 0
  value : match rest with
    | none => token.value = none
    | some line => ∃ p, token.value = some p ∧ CString mem p line

/-- The tokens from an index on. -/
structure Represents (mem : Block UInt8) (tokens : Block Token) (n : Nat) (t : Tokens) : Prop where
  words : ∀ i word, t.words[i]? = some word → WordToken mem (tokens.cell (n + i)) word
  terminal : TerminalToken mem (tokens.cell (n + t.words.length)) t.rest

variable {mem mem' : Block UInt8} {tokens : Block Token} {p n : Nat} {bytes word : List UInt8}
  {b : UInt8}

theorem CString.cons (str : CString mem p (b :: bytes)) :
    mem.get p = .ok b ∧ b ≠ 0 ∧ CString mem (p + 1) bytes := by
  obtain ⟨inside, shows, zero, nonzero⟩ := str
  rw [List.length_cons] at inside shows zero
  rw [Block.slice_succ, List.cons.injEq] at shows
  refine ⟨?_, fun here => nonzero (here ▸ List.mem_cons_self), ?_, shows.2, ?_, ?_⟩
  · rw [Block.get_of_lt (by omega), shows.1]
  · omega
  · rwa [Nat.add_right_comm, Nat.add_assoc]
  · exact fun mem => nonzero (List.mem_cons_of_mem _ mem)

theorem CString.nil (str : CString mem p []) : mem.get p = .ok 0 := by
  have inside : p < mem.size := str.inside
  rw [Block.get_of_lt inside]
  exact congrArg _ str.zero

theorem CString.congr (str : CString mem p bytes) (size : mem'.size = mem.size)
    (same : ∀ j, p ≤ j → j ≤ p + bytes.length → mem'.cell j = mem.cell j) :
    CString mem' p bytes :=
  ⟨size ▸ str.inside,
    (Block.slice_congr fun j le lt => same j le (Nat.le_of_lt lt)).trans str.shows,
    (same _ (Nat.le_add_right ..) (Nat.le_refl _)).trans str.zero, str.nonzero⟩

theorem strlen_eq (str : CString mem p bytes) {more : Nat} (enough : bytes.length < more) :
    strlen mem more p = .ok bytes.length := by
  induction bytes generalizing p more with
  | nil =>
    obtain ⟨more, rfl⟩ := Nat.exists_eq_add_one.mpr enough
    rw [strlen, str.nil]
    rfl
  | cons b bytes ih =>
    obtain ⟨more, rfl⟩ := Nat.exists_eq_add_one.mpr (Nat.zero_lt_of_lt enough)
    obtain ⟨here, ne, later⟩ := str.cons
    rw [strlen, here]
    simp only [Exec.ok_bind, if_neg ne, ih later (Nat.lt_of_succ_lt_succ enough)]
    rfl

theorem WordToken.read {token : Token} (here : WordToken mem token word) :
    token.read mem = .ok word := by
  obtain ⟨p, value, str⟩ := here.value
  rw [Token.read, value, here.length, Exec.access_some, Exec.ok_bind,
    if_pos (Nat.le_of_lt str.inside), str.shows]
  rfl

theorem WordToken.string {token : Token} (here : WordToken mem token word) :
    token.string mem = .ok word := by
  obtain ⟨p, value, str⟩ := here.value
  have enough : word.length < mem.size := Nat.lt_of_le_of_lt (Nat.le_add_left ..) str.inside
  rw [Token.string, value, Exec.access_some, Exec.ok_bind, strlen_eq str enough, Exec.ok_bind,
    str.shows]
  rfl

theorem Represents.cons {t : Tokens} (first : WordToken mem (tokens.cell n) word)
    (later : Represents mem tokens (n + 1) t) :
    Represents mem tokens n ⟨word :: t.words, t.rest⟩ where
  words
    | 0, _, here => Option.some.inj here ▸ first
    | i + 1, other, there => by
      rw [← Nat.add_assoc, Nat.add_right_comm]
      exact later.words i other there
  terminal := by
    rw [List.length_cons, ← Nat.add_assoc, Nat.add_right_comm]
    exact later.terminal

theorem Represents.uncons {words : List (List UInt8)} {rest : Option (List UInt8)}
    (found : Represents mem tokens n ⟨word :: words, rest⟩) :
    WordToken mem (tokens.cell n) word ∧ Represents mem tokens (n + 1) ⟨words, rest⟩ := by
  refine ⟨found.words 0 word rfl, fun i other there => ?_, ?_⟩
  · rw [Nat.add_right_comm, Nat.add_assoc]
    exact found.words (i + 1) other there
  · rw [Nat.add_right_comm, Nat.add_assoc]
    exact found.terminal

theorem Represents.nil {rest : Option (List UInt8)}
    (last : TerminalToken mem (tokens.cell n) rest) : Represents mem tokens n ⟨[], rest⟩ :=
  ⟨fun _ _ here => absurd here (by simp), last⟩

/-! ## The loop -/

/-- What the tokenizer leaves behind when it goes on from a state in the middle: the tokens it
was to find follow those it had, and it has written nothing before the place it had come to. -/
structure Scan.Finds (t : Scan) (found : Tokens) (t' : Scan) : Prop where
  size : t'.mem.size = t.mem.size
  tokens_size : t'.tokens.size = t.tokens.size
  ntokens : t'.ntokens = t.ntokens + found.ntokens
  represents : Represents t'.mem t'.tokens t.ntokens found
  tokens : ∀ i < t.ntokens, t'.tokens.cell i = t.tokens.cell i
  mem : ∀ j < t.e, t'.mem.cell j = t.mem.cell j

namespace Scan

variable {t : Scan}

theorem addWord_eq (room : t.ntokens < t.tokens.size) :
    t.addWord = .ok { t with
      tokens := t.tokens.put t.ntokens ⟨some t.s, t.e - t.s⟩, ntokens := t.ntokens + 1 } := by
  rw [addWord, Block.set_of_lt room]
  rfl

theorem endWord_eq (inside : t.e < t.mem.size) :
    t.endWord = .ok { t with mem := t.mem.put t.e 0, s := t.e + 1, e := t.e + 1 } := by
  rw [endWord, Block.set_of_lt inside]
  rfl

theorem addTerminal_eq {c : UInt8} (read : t.mem.get t.e = .ok c)
    (room : t.ntokens < t.tokens.size) :
    t.addTerminal = .ok { t with
      tokens := t.tokens.put t.ntokens ⟨if c = 0 then none else some t.e, 0⟩,
      ntokens := t.ntokens + 1 } := by
  rw [addTerminal, read, Exec.ok_bind, Block.set_of_lt room]
  rfl

/-- The last token says whether anything is left. -/
theorem addTerminal_finds (str : CString t.mem t.e bytes) (room : t.ntokens < t.tokens.size) :
    ∃ t', t.addTerminal = .ok t' ∧ t'.mem = t.mem ∧
      t.Finds ⟨[], if bytes = [] then none else some bytes⟩ t' := by
  obtain ⟨c, read, zero_iff⟩ : ∃ c, t.mem.get t.e = .ok c ∧ (c = 0 ↔ bytes = []) := by
    cases bytes with
    | nil => exact ⟨0, str.nil, by simp⟩
    | cons b bytes => exact ⟨b, str.cons.1, by simp [str.cons.2.1]⟩
  refine ⟨_, addTerminal_eq read room, rfl, rfl, rfl, rfl, .nil ?_, fun i lt => ?_, fun _ _ => rfl⟩
  · rw [Block.put_cell_self]
    by_cases empty : bytes = []
    · simp only [zero_iff, if_pos empty]
      exact ⟨rfl, rfl⟩
    · simp only [zero_iff, if_neg empty]
      exact ⟨rfl, t.e, rfl, str⟩
  · exact Block.put_cell_of_ne (Nat.ne_of_lt lt)

theorem Finds.cons {t₁ t' : Scan} {found : Tokens} (later : t₁.Finds found t')
    (tokens : t₁.tokens = t.tokens.put t.ntokens ⟨some t.s, t.e - t.s⟩)
    (ntokens : t₁.ntokens = t.ntokens + 1) (size : t₁.mem.size = t.mem.size) (le : t.e ≤ t₁.e)
    (same : ∀ j < t.e, t₁.mem.cell j = t.mem.cell j) (nonempty : word ≠ [])
    (length : word.length = t.e - t.s) (str : CString t'.mem t.s word) :
    t.Finds ⟨word :: found.words, found.rest⟩ t' where
  size := later.size.trans size
  tokens_size := by rw [later.tokens_size, tokens, Block.put_size]
  ntokens := by
    rw [later.ntokens, ntokens, Tokens.ntokens, Tokens.ntokens, List.length_cons]
    omega
  represents := by
    refine .cons ⟨?_, nonempty, t.s, ?_, str⟩ (ntokens ▸ later.represents)
    all_goals rw [later.tokens _ (by omega), tokens, Block.put_cell_self]
    exact length.symm
  tokens i lt := by
    rw [later.tokens i (by omega), tokens, Block.put_cell_of_ne (Nat.ne_of_lt lt)]
  mem j lt := (later.mem j (by omega)).trans (same j lt)

/-- What has been read and belongs to no word does not matter. -/
theorem Finds.skip {t₁ t' : Scan} {found : Tokens} (later : t₁.Finds found t')
    (tokens : t₁.tokens = t.tokens) (ntokens : t₁.ntokens = t.ntokens) (mem : t₁.mem = t.mem)
    (le : t.e ≤ t₁.e) : t.Finds found t' where
  size := mem ▸ later.size
  tokens_size := tokens ▸ later.tokens_size
  ntokens := ntokens ▸ later.ntokens
  represents := ntokens ▸ later.represents
  tokens i lt := tokens ▸ later.tokens i (ntokens ▸ lt)
  mem j lt := mem ▸ later.mem j (Nat.lt_of_lt_of_le lt le)

/-- The tokenizer in the middle of a line: some words are found, one may have begun. -/
structure At (t : Scan) (room : Nat) (word bytes : List UInt8) : Prop where
  begun : t.s + word.length = t.e
  shows : t.mem.slice t.s word.length = word
  nonzero : 0 ∉ word
  rest : CString t.mem t.e bytes
  pos : 0 < room
  room : t.ntokens + room = maxTokens - 1
  size : t.tokens.size = maxTokens

section

variable {room : Nat}

theorem At.lt_size (here : t.At room word bytes) : t.ntokens + 1 < t.tokens.size := by
  have pos := here.pos
  have room := here.room
  rw [here.size]
  omega

theorem At.ne_iff (here : t.At room word bytes) : t.s ≠ t.e ↔ word ≠ [] := by
  rw [Ne, Ne, ← List.length_eq_zero_iff, ← here.begun]
  omega

/-- After the last byte. -/
theorem At.finish_finds (here : t.At room word []) :
    ∃ t', t.finish = .ok t' ∧ t.Finds (tokenizeLoop room word []) t' := by
  have lt := here.lt_size
  rw [finish, tokenizeLoop]
  simp only [here.ne_iff]
  by_cases empty : word = []
  · rw [if_neg (not_not.mpr empty), if_pos empty]
    obtain ⟨t', ran, -, found⟩ := addTerminal_finds here.rest (Nat.lt_of_succ_lt lt)
    exact ⟨t', ran, found⟩
  rw [if_pos empty, if_neg empty, addWord_eq (Nat.lt_of_succ_lt lt), Exec.ok_bind]
  obtain ⟨t', ran, same, found⟩ := @addTerminal_finds [] { t with
    tokens := t.tokens.put t.ntokens ⟨some t.s, t.e - t.s⟩, ntokens := t.ntokens + 1 }
    here.rest lt
  refine ⟨t', ran, found.cons rfl rfl rfl (Nat.le_refl _) (fun _ _ => rfl) empty ?_ ?_⟩
  · exact (Nat.sub_eq_of_eq_add' here.begun.symm).symm
  · rw [same]
    exact ⟨here.begun ▸ here.rest.inside, here.shows, here.begun ▸ here.rest.zero, here.nonzero⟩

theorem At.byte (here : t.At room word (b :: bytes)) :
    At { t with e := t.e + 1 } room (word ++ [b]) bytes := by
  obtain ⟨read, ne, rest⟩ := here.rest.cons
  have cell : t.mem.cell t.e = b := by
    have inside : t.e < t.mem.size := Nat.lt_of_le_of_lt (Nat.le_add_right ..) here.rest.inside
    rw [Block.get_of_lt inside] at read
    exact Except.ok.inj read
  refine ⟨?_, ?_, ?_, rest, here.pos, here.room, here.size⟩
  · rw [List.length_append, ← Nat.add_assoc, here.begun]
    rfl
  · rw [List.length_append, Block.slice_add, here.shows, here.begun, List.length_singleton,
      Block.slice_succ, cell, Block.slice_zero]
  · rw [List.mem_append, List.mem_singleton]
    exact fun mem => mem.elim here.nonzero fun zero => ne zero.symm

/-- A space where no word has begun. -/
theorem At.space (here : t.At room [] (b :: bytes)) :
    At { t with s := t.e + 1, e := t.e + 1 } room [] bytes :=
  ⟨rfl, rfl, here.nonzero, here.rest.cons.2.2, here.pos, here.room, here.size⟩

end

/-- The state after a word. -/
def afterWord (t : Scan) : Scan :=
  { t with
    tokens := t.tokens.put t.ntokens ⟨some t.s, t.e - t.s⟩
    ntokens := t.ntokens + 1
    mem := t.mem.put t.e 0
    s := t.e + 1
    e := t.e + 1 }

section

variable {room : Nat}

theorem At.endWord_eq (here : t.At room word (b :: bytes)) :
    (do
      let t ← t.addWord
      t.endWord) = .ok t.afterWord := by
  have inside : t.e < t.mem.size := Nat.lt_of_le_of_lt (Nat.le_add_right ..) here.rest.inside
  rw [addWord_eq (Nat.lt_of_succ_lt here.lt_size), Exec.ok_bind]
  exact Scan.endWord_eq inside

theorem At.rest_afterWord (here : t.At room word (b :: bytes)) :
    CString t.afterWord.mem t.afterWord.e bytes :=
  here.rest.cons.2.2.congr rfl fun _ le _ => Block.put_cell_of_ne (Nat.ne_of_gt le)

theorem At.finds_afterWord {t' : Scan} {found : Tokens} (here : t.At room word (b :: bytes))
    (nonempty : word ≠ []) (later : t.afterWord.Finds found t') :
    t.Finds ⟨word :: found.words, found.rest⟩ t' := by
  have inside : t.e < t.mem.size := Nat.lt_of_le_of_lt (Nat.le_add_right ..) here.rest.inside
  have begun := here.begun
  refine later.cons rfl rfl rfl (Nat.le_succ _)
    (fun j lt => Block.put_cell_of_ne (Nat.ne_of_lt lt)) nonempty (by omega) ?_
  have str : CString t.afterWord.mem t.s word := by
    refine ⟨begun.symm ▸ inside, ?_, ?_, here.nonzero⟩
    · refine (Block.slice_congr fun j _ lt => Block.put_cell_of_ne ?_).trans here.shows
      omega
    · rw [begun]
      exact Block.put_cell_self ..
  refine str.congr later.size fun j _ le => later.mem j ?_
  exact Nat.lt_succ_of_le (begun ▸ le)

/-- Between two words. -/
theorem At.next (here : t.At room word (b :: bytes)) (more : room ≠ 1) :
    t.afterWord.At (room - 1) [] bytes := by
  have pos := here.pos
  have count := here.room
  refine ⟨rfl, rfl, by simp, here.rest_afterWord, by omega, ?_, here.size⟩
  change t.ntokens + 1 + (room - 1) = maxTokens - 1
  omega

/-- The loop and what follows it never leave the line or the array, and find the words. -/
theorem loop_finds (here : t.At room word bytes) :
    ∃ t', (do
      let t ← loop bytes.length t
      t.finish) = .ok t' ∧ t.Finds (tokenizeLoop room word bytes) t' := by
  induction bytes generalizing t room word with
  | nil => exact here.finish_finds
  | cons b bytes ih =>
    rw [List.length_cons, loop, tokenizeLoop, here.rest.cons.1, Exec.ok_bind]
    by_cases space : b = 32
    · rw [if_pos space, if_pos space]
      by_cases empty : word = []
      · subst empty
        rw [if_neg (not_not.mpr (by simpa using here.ne_iff)), if_pos rfl]
        obtain ⟨t', ran, found⟩ := ih here.space
        exact ⟨t', ran, found.skip rfl rfl rfl (Nat.le_succ _)⟩
      rw [if_pos (here.ne_iff.mpr empty), if_neg empty, ← bind_assoc, here.endWord_eq, Exec.ok_bind]
      have count := here.room
      by_cases full : room = 1
      · -- the array is full: the last token points behind the word
        have last : t.afterWord.ntokens = maxTokens - 1 := by
          subst full
          exact count
        have lt : t.afterWord.ntokens < t.afterWord.tokens.size := here.lt_size
        rw [if_pos last, if_pos full]
        obtain ⟨t', ran, -, found⟩ := addTerminal_finds here.rest_afterWord lt
        refine ⟨t', ?_, here.finds_afterWord empty found⟩
        have none : ¬t.afterWord.s ≠ t.afterWord.e := not_not.mpr rfl
        rw [pure_bind, finish, if_neg none]
        exact ran
      · have more : t.afterWord.ntokens ≠ maxTokens - 1 := by
          have pos := here.pos
          change t.ntokens + 1 ≠ maxTokens - 1
          omega
        rw [if_neg more, if_neg full]
        obtain ⟨t', ran, found⟩ := ih (here.next full)
        exact ⟨t', ran, here.finds_afterWord empty found⟩
    · rw [if_neg space, if_neg space]
      obtain ⟨t', ran, found⟩ := ih here.byte
      exact ⟨t', ran, found.skip rfl rfl rfl (Nat.le_succ _)⟩

end

end Scan

theorem takeWhile_of_nonzero (nonzero : 0 ∉ bytes) : bytes.takeWhile (· ≠ 0) = bytes := by
  refine List.takeWhile_eq_self_iff.mpr fun b mem => ?_
  exact decide_eq_true fun zero => nonzero (zero ▸ mem)

/-- The tokenizer stays within the line and within its array, and finds the words. -/
theorem tokenizeMemory_finds (str : CString mem p bytes) (size : tokens.size = maxTokens) :
    ∃ t, tokenizeMemory p mem tokens = .ok t ∧
      Scan.Finds ⟨p, p, 0, mem, tokens⟩ (tokenizeCommand bytes) t := by
  have here : Scan.At ⟨p, p, 0, mem, tokens⟩ (maxTokens - 1) [] bytes :=
    ⟨rfl, rfl, by simp, str, by decide, rfl, size⟩
  have enough : bytes.length < mem.size := Nat.lt_of_le_of_lt (Nat.le_add_left ..) str.inside
  rw [tokenizeMemory, strlen_eq str enough, Exec.ok_bind, tokenizeCommand,
    takeWhile_of_nonzero str.nonzero]
  exact Scan.loop_finds here

end Kvsev.Connection
