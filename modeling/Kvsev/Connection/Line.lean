import Kvsev.Memory.Bytes
import Kvsev.Server.Text

/-!
# Request lines

A line of the text protocol ends with a newline. `tokenize_command` cuts it into words;
its array has room for a limited number of them, and what does not fit is left for
another call. `process_command` then looks at the first word and at the number of
words.

Builds without extstore, TLS and debugging commands are considered.
-/

namespace Kvsev.Connection

open Server

export Memory (text crlf)

/-- The bytes before the first newline and those after it. -/
def splitLine : List UInt8 → Option (List UInt8 × List UInt8)
  | [] => none
  | b :: bs => if b = 10 then some ([], bs) else (splitLine bs).map fun (l, r) => (b :: l, r)

/-- A carriage return before the newline is not part of the line, except in a line
that has nothing else. -/
def chomp (line : List UInt8) : List UInt8 :=
  if 1 < line.length ∧ line.getLast? = some 13 then line.dropLast else line

theorem length_chomp (line : List UInt8) : (chomp line).length ≤ line.length := by
  rw [chomp]
  split
  · rw [List.length_dropLast]
    exact Nat.sub_le _ _
  · exact Nat.le_refl _

/-! ## Words -/

def maxTokens : Nat := 24

/-- The words of a line, and what is left of it when the array is full. -/
structure Tokens where
  words : List (List UInt8)
  rest : Option (List UInt8)

/-- The terminal token counts as well. -/
def Tokens.ntokens (t : Tokens) : Nat := t.words.length + 1

/-- The loop of `tokenize_command`, with the room that is left, the word that was begun
and the bytes to come. -/
def tokenizeLoop : Nat → List UInt8 → List UInt8 → Tokens
  | _, word, [] => ⟨if word = [] then [] else [word], none⟩
  | room, word, b :: bs =>
    if b = 32 then
      if word = [] then tokenizeLoop room [] bs
      else if room = 1 then ⟨[word], if bs = [] then none else some bs⟩
      else
        let t := tokenizeLoop (room - 1) [] bs
        ⟨word :: t.words, t.rest⟩
    else tokenizeLoop room (word ++ [b]) bs

/-- `tokenize_command`; the line is a string of C. -/
def tokenizeCommand (command : List UInt8) : Tokens :=
  tokenizeLoop (maxTokens - 1) [] (command.takeWhile (· ≠ 0))

theorem tokenizeLoop_word {room : Nat} {word bs other : List UInt8} (begun : 32 ∉ word)
    (mem : other ∈ (tokenizeLoop room word bs).words) : 32 ∉ other := by
  induction bs generalizing room word with
  | nil =>
    rw [tokenizeLoop] at mem
    split at mem
    · cases mem
    · exact (List.mem_singleton.mp mem) ▸ begun
  | cons b bs ih =>
    rw [tokenizeLoop] at mem
    split at mem
    · split at mem
      · exact ih (by simp) mem
      split at mem
      · exact (List.mem_singleton.mp mem) ▸ begun
      · rcases List.mem_cons.mp mem with rfl | later
        · exact begun
        · exact ih (by simp) later
    · rename_i other
      refine ih ?_ mem
      rw [List.mem_append, List.mem_singleton]
      rintro (old | new)
      · exact begun old
      · exact other new.symm

theorem tokenizeCommand_word {command word : List UInt8}
    (mem : word ∈ (tokenizeCommand command).words) : 32 ∉ word :=
  tokenizeLoop_word (by simp) mem

/-- `set_noreply_maybe` -/
def setNoreplyMaybe (t : Tokens) : Bool := t.words.getLast? = some (text "noreply")

/-! ## Commands -/

/-- The handlers of `process_command`, as far as they differ in what they do to the
connection. The others answer with one response. Of the forms of `stats`, only those
that read or reset the counters of the traffic are kept apart. -/
inductive Request where
  | get (returnCas touch : Bool)
  | update (comm : Nread)
  | mset
  | mn
  | stats
  | shutdown
  | metadump
  | watch
  | quit
  | http
  | error
  | other
  deriving DecidableEq, Repr

/-- `WANT_TOKENS` -/
def wantTokens (n least most : Nat) (r : Request) : Request :=
  if n < least ∨ most < n then .error else r

/-- `WANT_TOKENS_OR` -/
def wantTokensOr (n a b : Nat) (r : Request) : Request := if n ≠ a ∧ n ≠ b then .error else r

/-- `WANT_TOKENS_MIN` -/
def wantTokensMin (n least : Nat) (r : Request) : Request := if n < least then .error else r

/-- The meta commands, by their second letter. -/
def metaRequest (letter : Option UInt8) : Request :=
  if letter = some 115 then .mset
  else if letter = some 110 then .mn
  else if letter ∈ [some 103, some 100, some 97, some 101] then .other
  else .error

/-- The choice of a handler in `process_command`. -/
def dispatch (t : Tokens) : Request :=
  match t.words with
  | [] => .error
  | command :: args =>
    let n := t.ntokens
    let first := command.head?
    if command.length < 2 then .error
    else if first = some 109 ∧ command.length = 2 then metaRequest command[1]?
    else if first = some 103 then
      wantTokensMin n 3 <|
        if command = text "get" then .get false false
        else if command = text "gets" then .get true false
        else if command = text "gat" then .get false true
        else if command = text "gats" then .get true true
        else .error
    else if first = some 115 then
      if command = text "set" then wantTokensOr n 6 7 (.update .set)
      else if command = text "stats" then
        if n = 2 ∨ args.head? = some (text "reset") then .stats else .other
      else if command = text "shutdown" then .shutdown
      else if command = text "slabs" then .other
      else .error
    else if first = some 97 then
      if command = text "add" then wantTokensOr n 6 7 (.update .add)
      else if command = text "append" then wantTokensOr n 6 7 (.update .append)
      else .error
    else if first = some 99 then
      if command = text "cas" then wantTokensOr n 7 8 (.update .cas)
      else if command = text "cache_memlimit" then wantTokensOr n 3 4 .other
      else .error
    else if first = some 105 then
      if command = text "incr" then wantTokensOr n 4 5 .other else .error
    else if first = some 100 then
      if command = text "delete" then wantTokens n 3 5 .other
      else if command = text "decr" then wantTokensOr n 4 5 .other
      else .error
    else if first = some 116 then
      if command = text "touch" then wantTokensOr n 4 5 .other else .error
    else if command = text "replace" then wantTokensOr n 6 7 (.update .replace)
    else if command = text "prepend" then wantTokensOr n 6 7 (.update .prepend)
    else if command = text "bget" then wantTokensMin n 3 (.get false false)
    else if command = text "flush_all" then wantTokens n 2 4 .other
    else if command = text "version" then .other
    else if command = text "quit" then .quit
    else if command = text "lru_crawler" then
      if n = 4 ∧ args.head? = some (text "metadump") then .metadump else .other
    else if command = text "watch" then .watch
    else if command = text "verbosity" then wantTokensOr n 3 4 .other
    else if command = text "lru" then wantTokensMin n 3 .other
    else if (text "HTTP/").isPrefixOf (t.words.getLast?.getD []) then .http
    else .error

/-- What `try_read_command_ascii` takes for the beginning of a large multiget, in a line
whose end has not come yet. -/
def beginsMultiget (rbuf : List UInt8) : Bool :=
  let blanks := rbuf.takeWhile (· = 32)
  let rest := rbuf.drop blanks.length
  decide (blanks.length ≤ 100) &&
    ((text "get ").isPrefixOf rest || (text "gets ").isPrefixOf rest)

/-! ## Splitting at the newline -/

theorem splitLine_some {bs line rest : List UInt8} (split : splitLine bs = some (line, rest)) :
    bs = line ++ 10 :: rest ∧ 10 ∉ line := by
  induction bs generalizing line with
  | nil => cases split
  | cons b bs ih =>
    simp only [splitLine] at split
    split at split
    · rename_i newline
      cases split
      rw [newline]
      exact ⟨rfl, List.not_mem_nil⟩
    rename_i other
    obtain ⟨⟨l, r⟩, later, eq⟩ := Option.map_eq_some_iff.mp split
    cases eq
    obtain ⟨whole, clean⟩ := ih later
    refine ⟨by rw [whole, List.cons_append], fun mem => ?_⟩
    rcases List.mem_cons.mp mem with same | mem
    · exact other same.symm
    · exact clean mem

theorem splitLine_none {bs : List UInt8} : splitLine bs = none ↔ 10 ∉ bs := by
  induction bs with
  | nil => simp [splitLine]
  | cons b bs ih =>
    simp only [splitLine]
    split
    · rename_i newline
      simp [newline]
    · rename_i other
      rw [Option.map_eq_none_iff, ih, List.mem_cons, not_or]
      exact ⟨fun clean => ⟨fun same => other same.symm, clean⟩, fun both => both.2⟩

end Kvsev.Connection
