import Kvsev.Memory.Writer
import Kvsev.Meta.Base64
import Kvsev.Meta.Storing
import Kvsev.Server.Counter
import Mathlib.Data.List.Perm.Subperm

/-!
# The answer of `ms`

While the value is on its way, the flags that ask for something in the answer wait in the write
buffer of the response. `_finalize_mset` reads them from there and writes the answer behind them.
It takes the key and the unique from the item that was uploaded, which is not the one that
`append` and `prepend` leave in the table, and it encodes a binary key anew.
-/

namespace Kvsev.Meta

open Memory Server Connection

/-- `WRITE_BUFFER_SIZE` -/
def writeBufferSize : Nat := 1024

/-! ## Writing -/

/-- `META_SPACE` -/
def metaSpace : Writer UInt8 → Exec (Writer UInt8) := Writer.char 32

/-- `META_CHAR` -/
def metaChar (c : UInt8) (w : Writer UInt8) : Exec (Writer UInt8) := do
  let w ← w.char 32
  w.char c

/-- `base64_encode` into a buffer. -/
def base64EncodeTo (src : Key) (outLen : Nat) (w : Writer UInt8) : Exec (Writer UInt8) :=
  let olen := src.length * 4 / 3 + 4
  if outLen < olen + olen / 72 + 1 then return w
  else do
    let w ← w.copy (base64Encode src)
    w.mark 0

/-- The part of `META_KEY` that follows the letter. -/
def metaKeyText (key : Key) (bin : Bool) (w : Writer UInt8) : Exec (Writer UInt8) :=
  if bin then do
    let w ← base64EncodeTo key (writeBufferSize / 2) w
    metaChar 98 w
  else w.copy key

/-- `META_KEY` -/
def metaKey (key : Key) (bin : Bool) (w : Writer UInt8) : Exec (Writer UInt8) := do
  let w ← metaChar 107 w
  metaKeyText key bin w

/-- `itoa_u64` into a buffer. -/
def itoaTo (n : Nat) (w : Writer UInt8) : Exec (Writer UInt8) := do
  let w ← w.copy (itoaU64 n)
  w.mark 0

/-! ## The flags that wait -/

/-- What the loop of `process_mset_command` notes for a word, without the space before it. -/
def stashBody (token : List UInt8) : Option (List UInt8) :=
  if letter token = 79 then some token
  else if letter token = 107 then some [107]
  else if letter token = 99 then some [99]
  else none

/-- One round of the loop. An opaque token that is too long is an error later on. -/
def stashFlag (token : List UInt8) (w : Writer UInt8) : Exec (Writer UInt8) :=
  if letter token = 79 then
    if mflagMaxOpaqueLength < token.length then return w
    else do
      let w ← metaSpace w
      w.copy token
  else if letter token = 107 then metaChar 107 w
  else if letter token = 99 then metaChar 99 w
  else return w

/-- The loop of `process_mset_command`. -/
def stash : List (List UInt8) → Writer UInt8 → Exec (Writer UInt8)
  | [], w => return w
  | token :: tokens, w => do
    let w ← stashFlag token w
    stash tokens w

/-- What the answer needs of the uploaded item. -/
structure Uploaded where
  key : Key
  cas : Nat
  keyBinary : Bool

/-- The inner loop of `_finalize_mset`, with the number of bytes that are left of the flags,
which end at `stop`. -/
def copyOpaque (stop : Nat) : Nat → Writer UInt8 → Exec (Nat × Writer UInt8)
  | 0, w => return (0, w)
  | left + 1, w => do
    let c ← w.buf.get (stop - (left + 1))
    if c = 32 then return (left + 1, w)
    else
      let w ← w.char c
      copyOpaque stop left w

/-- The other cases of the switch in `_finalize_mset`. -/
def finalizeFlag (it : Uploaded) (c : UInt8) (w : Writer UInt8) : Exec (Writer UInt8) :=
  if c = 107 then metaKey it.key it.keyBinary w
  else if c = 99 then do
    let w ← metaChar 99 w
    itoaTo it.cas w
  else return w

/-- The loop of `_finalize_mset`. Every round takes a byte away, so that the first number,
which bounds the rounds, is large enough from the start. -/
def finalizeLoop (it : Uploaded) (stop : Nat) :
    Nat → Nat → Writer UInt8 → Exec (Writer UInt8)
  | rounds + 1, left + 1, w => do
    let c ← w.buf.get (stop - (left + 1))
    if c = 79 then
      let w ← metaSpace w
      let (left, w) ← copyOpaque stop (left + 1) w
      -- the space behind the token is passed over
      finalizeLoop it stop rounds (left - 1) w
    else
      let w ← finalizeFlag it c w
      finalizeLoop it stop rounds left w
  | _, _, w => return w

/-- `_finalize_mset`: what is sent. -/
def finalizeMset (metaResponseOld : Bool) (ret : StoreItemType) (it : Uploaded)
    (w : Writer UInt8) : Exec (List UInt8) :=
  if ret = .tooLarge ∨ ret = .noMemory then
    return text (msetReply metaResponseOld (some ret)) ++ crlf
  else do
    let stop := w.pos
    let w ← w.copy (text (msetReply metaResponseOld (some ret)))
    let w ← finalizeLoop it stop stop stop w
    let w ← w.copy crlf
    return w.buf.slice stop (w.pos - stop)

/-! ## What is written -/

/-- Words with a space before each. -/
def spaced (words : List (List UInt8)) : List UInt8 := (words.map (32 :: ·)).flatten

/-- The words of the answer for a flag that waited. -/
def answerWords (it : Uploaded) (body : List UInt8) : List (List UInt8) :=
  if body = [107] then
    if it.keyBinary then [107 :: base64Encode it.key, [98]] else [107 :: it.key]
  else if body = [99] then [99 :: itoaU64 it.cas]
  else [body]

/-- A flag as it waits. -/
def Stashed (body : List UInt8) : Prop :=
  body = [107] ∨ body = [99] ∨ body.head? = some 79 ∧ 32 ∉ body

variable {it : Uploaded} {w : Writer UInt8} {body : List UInt8} {bodies : List (List UInt8)}
variable {tokens : List (List UInt8)} {token : List UInt8}

theorem writes_metaChar (c : UInt8) : Writer.Writes (metaChar c) [32, c] :=
  (Writer.Writes.char 32).seq (.char c)

theorem writes_itoaTo (n : Nat) : Writer.Writes (itoaTo n) (itoaU64 n) := by
  have written := (Writer.Writes.copy (itoaU64 n)).seq (.mark 0)
  rwa [List.append_nil] at written

theorem spaced_cons (word : List UInt8) (words : List (List UInt8)) :
    spaced (word :: words) = 32 :: (word ++ spaced words) := rfl

theorem spaced_append (words more : List (List UInt8)) :
    spaced (words ++ more) = spaced words ++ spaced more := by
  rw [spaced, spaced, spaced, List.map_append, List.flatten_append]

theorem writes_base64EncodeTo {key : Key} (short : key.length ≤ keyMaxLength) :
    Writer.Writes (base64EncodeTo key (writeBufferSize / 2)) (base64Encode key) := by
  have room : ¬writeBufferSize / 2 <
      key.length * 4 / 3 + 4 + (key.length * 4 / 3 + 4) / 72 + 1 := by
    rw [writeBufferSize]
    rw [keyMaxLength] at short
    omega
  have written := (Writer.Writes.copy (base64Encode key)).seq (.mark 0)
  rw [List.append_nil] at written
  exact written.of_eq fun w => if_neg room

theorem writes_metaKey {key : Key} (bin : Bool) (short : key.length ≤ keyMaxLength) :
    Writer.Writes (metaKey key bin)
      (spaced (if bin then [107 :: base64Encode key, [98]] else [107 :: key])) := by
  cases bin with
  | true =>
    have text : spaced [107 :: base64Encode key, [98]] =
        [32, 107] ++ (base64Encode key ++ [32, 98]) := by simp [spaced]
    rw [if_pos rfl, text]
    exact (writes_metaChar 107).seq ((writes_base64EncodeTo short).seq (writes_metaChar 98))
  | false =>
    have text : spaced [107 :: key] = [32, 107] ++ key := by simp [spaced]
    rw [if_neg Bool.false_ne_true, text]
    exact (writes_metaChar 107).seq (.copy key)

theorem writes_finalizeFlag (short : it.key.length ≤ keyMaxLength) {c : UInt8}
    (known : c = 107 ∨ c = 99) :
    Writer.Writes (finalizeFlag it c) (spaced (answerWords it [c])) := by
  rcases known with rfl | rfl
  · exact writes_metaKey it.keyBinary short
  · have text : spaced (answerWords it [99]) = [32, 99] ++ itoaU64 it.cas := by
      simp [spaced, answerWords]
    rw [text]
    exact (writes_metaChar 99).seq (writes_itoaTo it.cas)

theorem length_opaqueToken (here : letter token = 79) (short : opaqueTooLong token = false) :
    token.length ≤ mflagMaxOpaqueLength := by
  cases token with
  | nil => exact Nat.zero_le _
  | cons c rest =>
    obtain rfl : c = 79 := here
    simpa [opaqueTooLong] using short

theorem writes_stashFlag (short : opaqueTooLong token = false) :
    Writer.Writes (stashFlag token) (spaced (stashBody token).toList) := by
  by_cases isOpaque : letter token = 79
  · have fits := Nat.not_lt.mpr (length_opaqueToken isOpaque short)
    have text : spaced (some token).toList = [32] ++ token := by simp [spaced]
    rw [stashBody, if_pos isOpaque, text]
    refine ((Writer.Writes.char 32).seq (.copy token)).of_eq fun w => ?_
    rw [stashFlag, if_pos isOpaque, if_neg fits]
    rfl
  by_cases key : letter token = 107
  · rw [stashBody, if_neg isOpaque, if_pos key]
    refine (writes_metaChar 107).of_eq fun w => ?_
    rw [stashFlag, if_neg isOpaque, if_pos key]
  by_cases cas : letter token = 99
  · rw [stashBody, if_neg isOpaque, if_neg key, if_pos cas]
    refine (writes_metaChar 99).of_eq fun w => ?_
    rw [stashFlag, if_neg isOpaque, if_neg key, if_pos cas]
  · rw [stashBody, if_neg isOpaque, if_neg key, if_neg cas]
    refine Writer.Writes.nothing.of_eq fun w => ?_
    rw [stashFlag, if_neg isOpaque, if_neg key, if_neg cas]
    rfl

/-- The loop notes the flags with a space before each. -/
theorem writes_stash (fits : ∀ token ∈ tokens, opaqueTooLong token = false) :
    Writer.Writes (stash tokens) (spaced (tokens.filterMap stashBody)) := by
  induction tokens with
  | nil => exact .nothing
  | cons token tokens ih =>
    have rest := ih fun other mem => fits other (List.mem_cons_of_mem _ mem)
    have bodies : (token :: tokens).filterMap stashBody =
        (stashBody token).toList ++ tokens.filterMap stashBody := by
      rw [List.filterMap_cons]
      cases stashBody token <;> rfl
    rw [bodies, spaced_append]
    exact (writes_stashFlag (fits token List.mem_cons_self)).seq rest

/-! ## What is read -/

/-- The opaque token is copied up to the space behind it, or up to the end of the flags. -/
theorem copyOpaque_spec {size stop : Nat} {front word back done : List UInt8}
    (stop_eq : stop = (front ++ word ++ back).length) (noSpace : 32 ∉ word)
    (behind : back.head? = none ∨ back.head? = some 32)
    (holds : w.Holds size (front ++ word ++ back ++ done))
    (room : stop + done.length + word.length < size) :
    ∃ w', copyOpaque stop (word.length + back.length) w = .ok (back.length, w') ∧
      w'.Holds size (front ++ word ++ back ++ (done ++ word)) := by
  induction word generalizing front done w with
  | nil =>
    refine ⟨w, ?_, by simpa using holds⟩
    cases back with
    | nil => rfl
    | cons c back =>
      simp only [List.head?_cons, reduceCtorEq, Option.some.injEq, false_or] at behind
      subst behind
      have here : (front ++ [] ++ 32 :: back ++ done)[stop - (back.length + 1)]? = some 32 := by
        rw [stop_eq]
        simp
      have read := holds.get (by simp at *; omega) here
      simp only [List.length_nil, Nat.zero_add, List.length_cons, copyOpaque, read]
      rfl
  | cons c word ih =>
    have here : (front ++ c :: word ++ back ++ done)[stop - (word.length + back.length + 1)]? =
        some c := by
      have at_front : stop - (word.length + back.length + 1) = front.length := by
        rw [stop_eq]
        simp only [List.length_append, List.length_cons]
        omega
      rw [at_front]
      simp
    simp only [List.length_append, List.length_cons] at stop_eq room
    have read := holds.get (by simp only [List.length_append, List.length_cons]; omega) here
    have other : c ≠ 32 := fun same => noSpace (same ▸ List.mem_cons_self)
    obtain ⟨w₁, wrote, holds₁⟩ := Writer.Writes.char c w size _ holds
      (by simp only [List.length_append, List.length_cons, List.length_nil]; omega)
    obtain ⟨w₂, ran, holds₂⟩ := @ih w₁ (front ++ [c]) (done ++ [c])
      (by simp only [List.length_append, List.length_cons, List.length_nil]; omega)
      (fun mem => noSpace (List.mem_cons_of_mem _ mem))
      (by simpa using holds₁)
      (by simp only [List.length_append, List.length_cons, List.length_nil]; omega)
    refine ⟨w₂, ?_, by simpa using holds₂⟩
    rw [List.length_cons, Nat.add_right_comm, copyOpaque, read]
    simp only [Exec.ok_bind, if_neg other, wrote]
    exact ran

/-- Behind a flag that waits is a space or the end. -/
theorem spaced_head (bodies : List (List UInt8)) :
    (spaced bodies).head? = none ∨ (spaced bodies).head? = some 32 := by
  cases bodies with
  | nil => exact .inl rfl
  | cons body bodies => exact .inr rfl

section

variable {size stop rounds : Nat} {front rest done : List UInt8} {c : UInt8}
variable (stop_eq : stop = (front ++ c :: rest).length)
variable (holds : w.Holds size (front ++ c :: rest ++ done)) (room : stop + done.length < size)

include stop_eq holds room

theorem get_stashed : w.buf.get (stop - (rest.length + 1)) = .ok c := by
  have here : (front ++ c :: rest ++ done)[stop - (rest.length + 1)]? = some c := by
    rw [stop_eq]
    simp
  exact holds.get (by rw [List.length_append, ← stop_eq]; omega) here

theorem finalizeLoop_opaqueToken {w₁ w₂ : Writer UInt8} {left : Nat} (isOpaque : c = 79)
    (wrote : metaSpace w = .ok w₁)
    (copied : copyOpaque stop (rest.length + 1) w₁ = .ok (left, w₂)) :
    finalizeLoop it stop (rounds + 1) (rest.length + 1) w =
      finalizeLoop it stop rounds (left - 1) w₂ := by
  rw [finalizeLoop, get_stashed stop_eq holds room]
  simp only [Exec.ok_bind, if_pos isOpaque, wrote, copied]

/-- A round at another byte. -/
theorem finalizeLoop_flag {w₁ : Writer UInt8} (other : c ≠ 79)
    (wrote : finalizeFlag it c w = .ok w₁) :
    finalizeLoop it stop (rounds + 1) (rest.length + 1) w =
      finalizeLoop it stop rounds rest.length w₁ := by
  rw [finalizeLoop, get_stashed stop_eq holds room]
  simp only [Exec.ok_bind, if_neg other, wrote]

end

/-- The loop behind the space of a flag, given what it does with the flags after that one. -/
theorem finalizeLoop_body {size stop rounds : Nat} {front done : List UInt8}
    (short : it.key.length ≤ keyMaxLength) (stashed : Stashed body)
    (later : ∀ {w : Writer UInt8} {rounds : Nat} {front rest done : List UInt8},
      rest = spaced bodies ∨ rest = (spaced bodies).tail → stop = (front ++ rest).length →
      rest.length ≤ rounds → w.Holds size (front ++ rest ++ done) →
      stop + done.length + (spaced (bodies.flatMap (answerWords it))).length < size →
      ∃ w', finalizeLoop it stop rounds rest.length w = .ok w' ∧
        w'.Holds size (front ++ rest ++ (done ++ spaced (bodies.flatMap (answerWords it)))))
    (stop_eq : stop = (front ++ (body ++ spaced bodies)).length)
    (enough : (body ++ spaced bodies).length ≤ rounds)
    (holds : w.Holds size (front ++ (body ++ spaced bodies) ++ done))
    (room : stop + done.length + ((spaced (answerWords it body)).length +
      (spaced (bodies.flatMap (answerWords it))).length) < size) :
    ∃ w', finalizeLoop it stop rounds (body ++ spaced bodies).length w = .ok w' ∧
      w'.Holds size (front ++ (body ++ spaced bodies) ++ (done ++
        (spaced (answerWords it body) ++ spaced (bodies.flatMap (answerWords it))))) := by
  have flag (c : UInt8) (known : c = 107 ∨ c = 99) (body_eq : body = [c]) :
      ∃ w', finalizeLoop it stop rounds (body ++ spaced bodies).length w = .ok w' ∧
        w'.Holds size (front ++ (body ++ spaced bodies) ++ (done ++
          (spaced (answerWords it body) ++ spaced (bodies.flatMap (answerWords it))))) := by
    subst body_eq
    change (spaced bodies).length + 1 ≤ rounds at enough
    obtain ⟨rounds, rfl⟩ := Nat.exists_eq_add_of_le' (Nat.le_of_add_left_le enough)
    obtain ⟨w₁, wrote, holds₁⟩ := writes_finalizeFlag short known w size _ holds (by
      rw [List.length_append, ← stop_eq]
      omega)
    obtain ⟨w₂, ran, holds₂⟩ := @later w₁ rounds (front ++ [c]) (spaced bodies)
      (done ++ spaced (answerWords it [c])) (.inl rfl) (by rw [stop_eq]; simp) (by omega)
      (by simpa using holds₁) (by rw [List.length_append]; omega)
    refine ⟨w₂, ?_, by simpa using holds₂⟩
    have other : c ≠ 79 := by rcases known with rfl | rfl <;> decide
    exact (finalizeLoop_flag stop_eq holds (by omega) other wrote).trans ran
  rcases stashed with key | cas | ⟨head, noSpace⟩
  · exact flag 107 (.inl rfl) key
  · exact flag 99 (.inr rfl) cas
  -- an opaque token, and the space behind it
  obtain ⟨word, rfl⟩ : ∃ word, body = 79 :: word := List.head?_eq_some_iff.mp head
  have words : answerWords it (79 :: word) = [79 :: word] := by
    simp [answerWords]
  rw [words] at room ⊢
  have text : spaced [79 :: word] = [32] ++ 79 :: word := by simp [spaced]
  rw [text] at room ⊢
  rw [List.length_append, List.length_singleton] at room
  change (word ++ spaced bodies).length + 1 ≤ rounds at enough
  obtain ⟨rounds, rfl⟩ := Nat.exists_eq_add_of_le' (Nat.le_of_add_left_le enough)
  obtain ⟨w₁, wrote, holds₁⟩ := Writer.Writes.char 32 w size _ holds (by
    rw [List.length_append, ← stop_eq, List.length_singleton]
    omega)
  obtain ⟨w₂, copied, holds₂⟩ := @copyOpaque_spec w₁ size stop front (79 :: word) (spaced bodies)
    (done ++ [32]) (by simpa using stop_eq) noSpace (spaced_head bodies) (by simpa using holds₁)
    (by rw [List.length_append, List.length_singleton]; omega)
  have parts : (spaced bodies).take 1 ++ (spaced bodies).tail = spaced bodies := by
    rw [← List.drop_one, List.take_append_drop]
  obtain ⟨w₃, ran, holds₃⟩ := @later w₂ rounds (front ++ 79 :: word ++ (spaced bodies).take 1)
    (spaced bodies).tail (done ++ [32] ++ 79 :: word) (.inr rfl)
    (by rw [List.append_assoc, parts]; simpa using stop_eq)
    (by rw [List.length_tail]; rw [List.length_append] at enough; omega)
    (by rw [List.append_assoc (front ++ 79 :: word), parts]; simpa using holds₂)
    (by simp only [List.length_append, List.length_singleton]; omega)
  rw [List.append_assoc (front ++ 79 :: word), parts] at holds₃
  refine ⟨w₃, ?_, by simpa using holds₃⟩
  rw [List.length_tail] at ran
  have length : (79 :: word).length + (spaced bodies).length =
      (word ++ spaced bodies).length + 1 := by
    rw [List.length_append, List.length_cons, Nat.add_right_comm]
  rw [length] at copied
  exact (finalizeLoop_opaqueToken stop_eq holds (by omega) rfl wrote copied).trans ran

/-- The loop writes the answer to all flags that are left, also if the first space was passed
over. -/
theorem finalizeLoop_spec {size stop rounds : Nat} {front rest done : List UInt8}
    (short : it.key.length ≤ keyMaxLength) (stashed : ∀ body ∈ bodies, Stashed body)
    (rest_eq : rest = spaced bodies ∨ rest = (spaced bodies).tail)
    (stop_eq : stop = (front ++ rest).length) (enough : rest.length ≤ rounds)
    (holds : w.Holds size (front ++ rest ++ done))
    (room : stop + done.length + (spaced (bodies.flatMap (answerWords it))).length < size) :
    ∃ w', finalizeLoop it stop rounds rest.length w = .ok w' ∧
      w'.Holds size (front ++ rest ++ (done ++ spaced (bodies.flatMap (answerWords it)))) := by
  induction bodies generalizing front rest done w rounds with
  | nil =>
    obtain rfl : rest = [] := by
      rcases rest_eq with rfl | rfl <;> rfl
    refine ⟨w, ?_, by simpa [spaced] using holds⟩
    cases rounds <;> rfl
  | cons body bodies ih =>
    rw [List.flatMap_cons, spaced_append, List.length_append] at room
    rw [List.flatMap_cons, spaced_append]
    have here : Stashed body := stashed body List.mem_cons_self
    have ih := fun {w rounds front rest done} => @ih w rounds front rest done
      fun other mem => stashed other (List.mem_cons_of_mem _ mem)
    rcases rest_eq with rfl | rfl
    · -- the space before the flag is nothing
      change (body ++ spaced bodies).length + 1 ≤ rounds at enough
      obtain ⟨rounds, rfl⟩ := Nat.exists_eq_add_of_le' (Nat.le_of_add_left_le enough)
      obtain ⟨w', ran, holds'⟩ := @finalizeLoop_body it w body bodies size stop rounds
        (front ++ [32]) done short here ih (by simpa [spaced_cons] using stop_eq) (by omega)
        (by simpa [spaced_cons] using holds) room
      refine ⟨w', ?_, by simpa [spaced_cons] using holds'⟩
      exact (finalizeLoop_flag stop_eq holds (by omega) (by decide) rfl).trans ran
    · exact finalizeLoop_body short here ih stop_eq enough holds room

theorem finalizeMset_spec (metaResponseOld : Bool) {size : Nat}
    (short : it.key.length ≤ keyMaxLength) (stashed : ∀ body ∈ bodies, Stashed body)
    (holds : w.Holds size (spaced bodies))
    (room : (spaced bodies).length + (spaced (bodies.flatMap (answerWords it))).length + 4 < size) :
    finalizeMset metaResponseOld .stored it w =
      .ok (text (msetReply metaResponseOld (some .stored)) ++
        spaced (bodies.flatMap (answerWords it)) ++ crlf) := by
  have two : (text (msetReply metaResponseOld (some .stored))).length = 2 := by
    cases metaResponseOld <;> decide
  obtain ⟨w₁, wrote₁, holds₁⟩ := Writer.Writes.copy
    (text (msetReply metaResponseOld (some .stored))) w size _ holds (by omega)
  obtain ⟨w₂, ran, holds₂⟩ := @finalizeLoop_spec it w₁ bodies size _ _ [] (spaced bodies) _ short
    stashed (.inl rfl) rfl (Nat.le_refl _) holds₁ (by simp only [List.nil_append]; omega)
  obtain ⟨w₃, wrote₃, holds₃⟩ := Writer.Writes.copy crlf w₂ size _ holds₂ (by
    simp only [List.nil_append, List.length_append, two, crlf, List.length_cons, List.length_nil]
    omega)
  have stop : w.pos = (spaced bodies).length := holds.pos
  rw [List.nil_append] at ran holds₃
  simp only [finalizeMset, reduceCtorEq, or_self, if_false, wrote₁, Exec.ok_bind, stop, ran,
    wrote₃, Exec.pure_eq_ok]
  rw [List.append_assoc] at holds₃
  have sent := holds₃.slice
  rw [holds₃.pos, List.length_append, Nat.add_sub_cancel_left, sent]

/-! ## How much room it takes -/

theorem length_spaced_flatMap {f : List UInt8 → List (List UInt8)} {k : Nat}
    (bound : ∀ body ∈ bodies, (spaced (f body)).length ≤ k) :
    (spaced (bodies.flatMap f)).length ≤ bodies.length * k := by
  induction bodies with
  | nil => exact Nat.zero_le _
  | cons body bodies ih =>
    have first := bound body List.mem_cons_self
    have later := ih fun other mem => bound other (List.mem_cons_of_mem _ mem)
    rw [List.flatMap_cons, spaced_append, List.length_append, List.length_cons, Nat.succ_mul]
    omega

theorem letter_stashBody (found : stashBody token = some body) :
    letter body = letter token ∧ letter body ∈ [79, 107, 99] := by
  unfold stashBody at found
  split at found
  · rename_i here
    cases found
    exact ⟨rfl, here ▸ by simp⟩
  split at found
  · rename_i here
    cases found
    exact ⟨here.symm, by decide⟩
  split at found
  · rename_i here
    cases found
    exact ⟨here.symm, by decide⟩
  · cases found

/-- There are three letters that wait. -/
theorem length_filterMap_stashBody (distinct : (tokens.map letter).Nodup) :
    (tokens.filterMap stashBody).length ≤ 3 := by
  have letters : ((tokens.filterMap stashBody).map letter).Sublist (tokens.map letter) := by
    clear distinct
    induction tokens with
    | nil => exact .slnil
    | cons token tokens ih =>
      rw [List.filterMap_cons]
      cases found : stashBody token with
      | none => exact ih.cons _
      | some body =>
        rw [List.map_cons, List.map_cons, (letter_stashBody found).1]
        exact ih.cons_cons _
  have known : (tokens.filterMap stashBody).map letter ⊆ [79, 107, 99] := by
    intro c mem
    obtain ⟨body, waits, rfl⟩ := List.mem_map.mp mem
    obtain ⟨token, -, found⟩ := List.mem_filterMap.mp waits
    exact (letter_stashBody found).2
  have few := (List.subperm_of_subset (letters.nodup distinct) known).length_le
  rwa [List.length_map] at few

/-- A flag as it waits is a word of the line or a letter. -/
theorem stashed_of_mem (words : ∀ token ∈ tokens, 32 ∉ token)
    (mem : body ∈ tokens.filterMap stashBody) : Stashed body := by
  obtain ⟨token, there, found⟩ := List.mem_filterMap.mp mem
  unfold stashBody at found
  split at found
  · rename_i here
    obtain rfl := Option.some.inj found
    refine .inr (.inr ⟨?_, words token there⟩)
    rw [eq_cons_of_letter (by decide) here]
    rfl
  split at found
  · cases found
    exact .inl rfl
  split at found
  · cases found
    exact .inr (.inl rfl)
  · cases found

/-- A key that fits into what may be said about an item. -/
def Uploaded.Short (it : Uploaded) : Prop :=
  it.key.length ≤ keyMaxLength ∧
    (it.keyBinary = true → it.key.length * 4 ≤ keyMaxLength * 3) ∧ it.cas < 2 ^ 64

theorem length_answerWords (short : it.Short) (bound : body.length ≤ 32) :
    (spaced (answerWords it body)).length ≤ 256 := by
  obtain ⟨key, binary, cas⟩ := short
  rw [keyMaxLength] at key binary
  unfold answerWords
  split
  · split
    · rename_i bin
      have encoded := length_base64Encode it.key
      have small := binary bin
      simp only [spaced, List.map_cons, List.map_nil, List.flatten_cons, List.flatten_nil,
        List.append_nil, List.length_append, List.length_cons, List.length_nil]
      omega
    · simp only [spaced, List.map_cons, List.map_nil, List.flatten_cons, List.flatten_nil,
        List.append_nil, List.length_cons]
      omega
  · split
    · have digits := Counter.length_itoaU64 cas
      simp only [spaced, List.map_cons, List.map_nil, List.flatten_cons, List.flatten_nil,
        List.append_nil, List.length_cons]
      omega
    · simp only [spaced, List.map_cons, List.map_nil, List.flatten_cons, List.flatten_nil,
        List.append_nil, List.length_cons]
      omega

theorem answer_fits (short : it.Short) (few : bodies.length ≤ 3)
    (bound : ∀ body ∈ bodies, body.length ≤ 32) :
    (spaced bodies).length + (spaced (bodies.flatMap (answerWords it))).length + 4 <
      writeBufferSize := by
  have waiting : (spaced (bodies.flatMap fun body => [body])).length ≤ bodies.length * 33 :=
    length_spaced_flatMap fun body mem => by
      have := bound body mem
      simp only [spaced, List.map_cons, List.map_nil, List.flatten_cons, List.flatten_nil,
        List.append_nil, List.length_cons]
      omega
  rw [List.flatMap_singleton'] at waiting
  have answer := length_spaced_flatMap (f := answerWords it) fun body mem =>
    length_answerWords short (bound body mem)
  rw [writeBufferSize]
  omega

end Kvsev.Meta
