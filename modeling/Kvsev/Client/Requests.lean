import Kvsev.Memory.Bytes
import Mathlib.Data.List.GetD

/-!
# The requests of the benchmark client

The client writes all its commands before it starts (`multithread.c`).
`file_to_memory` allocates a buffer per request and fills in the fixed parts,
`gen_test` draws the keys and values and copies them in, and `client_worker` copies
the command with `strncpy` and sends it.

The last loop of `gen_test` copies as many bytes of the value as the key has. Of a
longer value the rest is what `malloc` left in the buffer.
-/

namespace Kvsev.Client

open Function Memory

/-- The fields of `Arg` that shape the requests. -/
structure Arg where
  numThreads : Nat
  maxKeySize : Nat
  maxValSize : Nat
  runInstSize : Nat

/-- `digits`, as `main` sets it. -/
def digits (maxValSize : Nat) : Nat :=
  if maxValSize / 100 = 0 then 2
  else if maxValSize / 1000 = 0 then 3
  else if maxValSize / 10000 = 0 then 4
  else 0

/-- `cmd_len` -/
def cmdLen (arg : Arg) : Nat := 13 + arg.maxKeySize + digits arg.maxValSize + arg.maxValSize

/-- The buffers with the indices `[i][j]` of the four arrays. -/
structure Slot where
  key : Block UInt8
  val : Block UInt8
  cmdSet : Block UInt8
  cmdGet : Block UInt8

abbrev Slots := Nat → Nat → Slot

/-- The two loops over the threads and their requests around most of the code. -/
def forSlots (arg : Arg) (body : Nat → Nat → Slot → Exec Slot) (slots : Slots) : Exec Slots :=
  Exec.forEntries arg.numThreads
    (fun i row => Exec.forEntries (arg.runInstSize / arg.numThreads) (body i) row) slots

/-- `b[p] = c;` for each pair. -/
def writeChars (b : Block UInt8) (chars : List (Nat × Char)) : Exec (Block UInt8) :=
  chars.foldlM (fun b pc => b.set pc.1 pc.2.toNat.toUInt8) b

/-- The cases of `file_to_memory` for the size of the value. -/
def sizeChars (maxValSize : Nat) : List (Nat × Char) :=
  if maxValSize = 16 then [(25, '1'), (26, '6')]
  else if maxValSize = 64 then [(25, '6'), (26, '4')]
  else if maxValSize = 128 then [(25, '1'), (26, '2'), (27, '8')]
  else if maxValSize = 256 then [(25, '2'), (26, '5'), (27, '6')]
  else if maxValSize = 512 then [(25, '5'), (26, '1'), (27, '2')]
  else if maxValSize = 1024 then [(25, '1'), (26, '0'), (27, '2'), (28, '4')]
  else if maxValSize = 2048 then [(25, '2'), (26, '0'), (27, '4'), (28, '8')]
  else if maxValSize = 4096 then [(25, '4'), (26, '0'), (27, '9'), (28, '6')]
  else []

def getChars : List (Nat × Char) :=
  [(0, 'g'), (1, 'e'), (2, 't'), (3, ' '), (20, '\r'), (21, '\n')]

/-- What `file_to_memory` writes into a set command. -/
def setChars (arg : Arg) : List (Nat × Char) :=
  [(0, 's'), (1, 'e'), (2, 't'), (3, ' '), (20, ' '), (21, '0'), (22, ' '), (23, '0'), (24, ' ')] ++
    sizeChars arg.maxValSize ++
    [(25 + digits arg.maxValSize, '\r'), (26 + digits arg.maxValSize, '\n'),
      (cmdLen arg - 2, '\r'), (cmdLen arg - 1, '\n')]

/-- The contents of the memory that the calls of `malloc` return. -/
structure Fresh where
  key : Nat → Nat → Nat → UInt8
  val : Nat → Nat → Nat → UInt8
  cmdSet : Nat → Nat → Nat → UInt8
  cmdGet : Nat → Nat → Nat → UInt8

/-- The allocated buffers of one request. -/
def mallocSlot (arg : Arg) (fresh : Fresh) (i j : Nat) : Slot where
  key := ⟨arg.maxKeySize, fresh.key i j⟩
  val := ⟨arg.maxValSize, fresh.val i j⟩
  cmdSet := ⟨cmdLen arg, fresh.cmdSet i j⟩
  cmdGet := ⟨22, fresh.cmdGet i j⟩

/-- `file_to_memory`, after the keys were read from the file. -/
def fileToMemory (arg : Arg) (fresh : Fresh) : Exec Slots :=
  forSlots arg (fun _ _ slot => do
    let cmdGet ← writeChars slot.cmdGet getChars
    let cmdSet ← writeChars slot.cmdSet (setChars arg)
    return { slot with cmdGet, cmdSet }) (mallocSlot arg fresh)

/-- What the random numbers of `gen_test` choose: a line of the load file for each
key, and the characters of each value. -/
structure Drawn where
  line : Nat → Nat → Block UInt8
  char : Nat → Nat → Nat → UInt8

/-- The body of the first loop of `gen_test`. -/
def drawKey (arg : Arg) (drawn : Drawn) (i j : Nat) (slot : Slot) : Exec Slot := do
  let key ← Exec.forRange arg.maxKeySize (fun k key => do
    let c ← (drawn.line i j).get k
    key.set k c) slot.key
  return { slot with key }

/-- The body of the second loop of `gen_test`. -/
def drawVal (arg : Arg) (drawn : Drawn) (i j : Nat) (slot : Slot) : Exec Slot := do
  let val ← Exec.forRange arg.maxValSize (fun k val => val.set k (drawn.char i j k)) slot.val
  return { slot with val }

/-- The innermost body of the third loop of `gen_test`. -/
def assemble (arg : Arg) (k : Nat) (slot : Slot) : Exec Slot := do
  let c ← slot.key.get k
  let cmdGet ← slot.cmdGet.set (k + 4) c
  let cmdSet ← slot.cmdSet.set (k + 4) c
  let v ← slot.val.get k
  let cmdSet ← cmdSet.set (k + digits arg.maxValSize + 27) v
  return { slot with cmdGet, cmdSet }

/-- `gen_test` -/
def genTest (arg : Arg) (drawn : Drawn) (slots : Slots) : Exec Slots := do
  let slots ← forSlots arg (drawKey arg drawn) slots
  let slots ← forSlots arg (drawVal arg drawn) slots
  forSlots arg (fun _ _ slot => Exec.forRange arg.maxKeySize (assemble arg) slot) slots

/-- The bytes that `client_worker` writes to its socket for a set. -/
def sendSet (arg : Arg) (slot : Slot) : Exec (List UInt8) := do
  let bufIn : Block UInt8 := ⟨8192, fun _ => 0⟩
  let bufIn ← strncpy bufIn slot.cmdSet (cmdLen arg)
  return (List.range (cmdLen arg)).map bufIn.cell

/-- The set request number `j` of thread `i`. -/
def setRequest (arg : Arg) (fresh : Fresh) (drawn : Drawn) (i j : Nat) : Exec (List UInt8) := do
  let slots ← fileToMemory arg fresh
  let slots ← genTest arg drawn slots
  sendSet arg (slots i j)

/-! ## What the loops leave in the buffers -/

/-- Every slot is handled once, and by itself. -/
theorem forSlots_rule {arg : Arg} {body : Nat → Nat → Slot → Exec Slot} {slots : Slots}
    (P : Nat → Nat → Slot → Prop)
    (each : ∀ i < arg.numThreads, ∀ j < arg.runInstSize / arg.numThreads,
      ∃ slot, body i j (slots i j) = .ok slot ∧ P i j slot) :
    ∃ slots', forSlots arg body slots = .ok slots' ∧
      ∀ i < arg.numThreads, ∀ j < arg.runInstSize / arg.numThreads, P i j (slots' i j) :=
  Exec.forEntries_rule
    (fun i (row : Nat → Slot) => ∀ j < arg.runInstSize / arg.numThreads, P i j (row j))
    fun i lt => Exec.forEntries_rule (P i) (each i lt)

/-- The contents of a buffer after the assignments. -/
def charsAt (chars : List (Nat × Char)) (f : Nat → UInt8) : Nat → UInt8 :=
  chars.foldl (fun f pc => update f pc.1 pc.2.toNat.toUInt8) f

variable {chars : List (Nat × Char)}

theorem writeChars_spec {b : Block UInt8} (inside : ∀ pc ∈ chars, pc.1 < b.size) :
    writeChars b chars = .ok { b with cell := charsAt chars b.cell } := by
  induction chars generalizing b with
  | nil => rfl
  | cons pc chars ih =>
    rw [writeChars, List.foldlM_cons, Block.set_of_lt (inside pc List.mem_cons_self),
      Exec.ok_bind]
    exact ih fun q mem => inside q (List.mem_cons_of_mem _ mem)

variable {f : Nat → UInt8} {p : Nat}

theorem charsAt_of_not_mem (other : p ∉ chars.map Prod.fst) : charsAt chars f p = f p := by
  induction chars generalizing f with
  | nil => rfl
  | cons pc chars ih =>
    rw [List.map_cons, List.mem_cons, not_or] at other
    exact (ih other.2).trans (update_of_ne other.1 _ _)

/-- What is written does not depend on what was there. -/
theorem charsAt_of_mem
    (mem : p ∈ chars.map Prod.fst) (g : Nat → UInt8) : charsAt chars f p = charsAt chars g p := by
  induction chars generalizing f g with
  | nil => cases mem
  | cons pc chars ih =>
    by_cases later : p ∈ chars.map Prod.fst
    · exact ih later _
    have here : p = pc.1 := by simpa [later] using mem
    calc charsAt (pc :: chars) f p = update f pc.1 pc.2.toNat.toUInt8 p :=
          charsAt_of_not_mem later
      _ = update g pc.1 pc.2.toNat.toUInt8 p := by
          rw [here, update_self, update_self]
      _ = charsAt (pc :: chars) g p := (charsAt_of_not_mem later).symm

/-! ## One request -/

/-- The loop that copies a key or a value into its buffer. -/
theorem fill_spec {b : Block UInt8} {n : Nat} {body : Nat → Block UInt8 → Exec (Block UInt8)}
    {c : Nat → UInt8} (room : n ≤ b.size) (writes : ∀ k < n, ∀ b', body k b' = b'.set k (c k)) :
    ∃ b', Exec.forRange n body b = .ok b' ∧ b'.size = b.size ∧ ∀ k < n, b'.cell k = c k := by
  refine Exec.forRange_rule
    (fun m (b' : Block UInt8) => b'.size = b.size ∧ ∀ k < m, b'.cell k = c k)
    ⟨rfl, nofun⟩ ?_
  rintro k b' lt ⟨size, cells⟩
  refine ⟨_, (writes k lt b').trans (Block.set_of_lt (by omega) _), size, fun i below => ?_⟩
  by_cases last : i = k
  · subst last
    exact update_self ..
  · exact (update_of_ne last _ _).trans (cells i (by omega))

/-- A set command with the first `k` characters of key and value in it. -/
def assembled (d k : Nat) (f key val : Nat → UInt8) (p : Nat) : UInt8 :=
  if 4 ≤ p ∧ p < 4 + k then key (p - 4)
  else if 27 + d ≤ p ∧ p < 27 + d + k then val (p - (27 + d))
  else f p

theorem assembled_succ {d k : Nat} (short : k < 16) (f key val : Nat → UInt8) :
    update (update (assembled d k f key val) (k + 4) (key k)) (k + d + 27)
      (val k) = assembled d (k + 1) f key val := by
  funext p
  by_cases isKey : p = k + 4
  · subst isKey
    rw [update_of_ne (by omega), update_self, assembled,
      if_pos (by omega), Nat.add_sub_cancel]
  by_cases isVal : p = k + d + 27
  · subst isVal
    rw [update_self, assembled, if_neg (by omega), if_pos (by omega)]
    congr 1
    omega
  · rw [update_of_ne isVal, update_of_ne isKey]
    have keys : (4 ≤ p ∧ p < 4 + k) ↔ (4 ≤ p ∧ p < 4 + (k + 1)) := by omega
    have vals : (27 + d ≤ p ∧ p < 27 + d + k) ↔ (27 + d ≤ p ∧ p < 27 + d + (k + 1)) := by omega
    simp only [assembled, keys, vals]

/-- The value sizes that `file_to_memory` knows. -/
def valueSizes : List Nat := [16, 64, 128, 256, 512, 1024, 2048, 4096]

/-- The client runs with 16-byte keys and a value size it knows. -/
structure Supported (arg : Arg) : Prop where
  keySize : arg.maxKeySize = 16
  valSize : arg.maxValSize ∈ valueSizes

/-- The buffers of a request once `file_to_memory` is done with them. -/
structure Prepared (arg : Arg) (f : Nat → UInt8) (slot : Slot) : Prop where
  key : slot.key.size = 16
  val : slot.val.size = arg.maxValSize
  cmdGet : slot.cmdGet.size = 22
  size : slot.cmdSet.size = cmdLen arg
  cells : slot.cmdSet.cell = charsAt (setChars arg) f

variable {arg : Arg}

section

variable (supported : Supported arg)

include supported

theorem Supported.cmdLen_eq : cmdLen arg = 29 + digits arg.maxValSize + arg.maxValSize := by
  rw [cmdLen, supported.keySize]

theorem Supported.setChars_eq : setChars arg = setChars ⟨0, 16, arg.maxValSize, 0⟩ := by
  simp only [setChars, cmdLen, supported.keySize]

theorem Supported.setChars_lt : ∀ pc ∈ setChars arg, pc.1 < cmdLen arg := by
  have closed : ∀ size ∈ valueSizes, ∀ pc ∈ setChars ⟨0, 16, size, 0⟩,
      pc.1 < cmdLen ⟨0, 16, size, 0⟩ := by decide
  rw [supported.setChars_eq, cmdLen, supported.keySize]
  exact closed _ supported.valSize

theorem fileToMemory_spec (fresh : Fresh) :
    ∃ slots, fileToMemory arg fresh = .ok slots ∧
      ∀ i < arg.numThreads, ∀ j < arg.runInstSize / arg.numThreads,
        Prepared arg (fresh.cmdSet i j) (slots i j) := by
  refine forSlots_rule (fun i j slot => Prepared arg (fresh.cmdSet i j) slot) fun i _ j _ => ?_
  have get : ∀ pc ∈ getChars, pc.1 < (mallocSlot arg fresh i j).cmdGet.size := by
    show ∀ pc ∈ getChars, pc.1 < 22
    decide
  have set : ∀ pc ∈ setChars arg, pc.1 < (mallocSlot arg fresh i j).cmdSet.size :=
    supported.setChars_lt
  rw [writeChars_spec get, writeChars_spec set]
  exact ⟨_, rfl, supported.keySize, rfl, rfl, rfl, rfl⟩

theorem Supported.valSize_ge : 16 ≤ arg.maxValSize := by
  have closed : ∀ size ∈ valueSizes, 16 ≤ size := by decide
  exact closed _ supported.valSize

end

/-- A request after `k` iterations of the innermost loop of `gen_test`. -/
structure Assembling (arg : Arg) (f : Nat → UInt8) (slot : Slot) (k : Nat) (s : Slot) : Prop where
  key : s.key = slot.key
  val : s.val = slot.val
  cmdGet : s.cmdGet.size = 22
  size : s.cmdSet.size = cmdLen arg
  cells : s.cmdSet.cell = assembled (digits arg.maxValSize) k (charsAt (setChars arg) f)
    slot.key.cell slot.val.cell

theorem Assembling.step (supported : Supported arg) {slot s : Slot} {k : Nat}
    (prepared : Prepared arg f slot) (part : Assembling arg f slot k s) (short : k < 16) :
    ∃ s', assemble arg k s = .ok s' ∧ Assembling arg f slot (k + 1) s' := by
  have large := supported.valSize_ge
  have length := supported.cmdLen_eq
  have readKey : s.key.get k = .ok (slot.key.cell k) := by
    rw [part.key]
    exact Block.get_of_lt (by rw [prepared.key]; exact short)
  have readVal : s.val.get k = .ok (slot.val.cell k) := by
    rw [part.val]
    exact Block.get_of_lt (by rw [prepared.val]; omega)
  have size := part.size
  have get := part.cmdGet
  refine ⟨{ s with
      cmdGet := s.cmdGet.put (k + 4) (slot.key.cell k)
      cmdSet := (s.cmdSet.put (k + 4) (slot.key.cell k)).put (k + digits arg.maxValSize + 27)
        (slot.val.cell k) }, ?_, part.key, part.val, get, size, ?_⟩
  · have writeGet := Block.set_of_lt (show k + 4 < s.cmdGet.size by omega) (slot.key.cell k)
    have writeKey := Block.set_of_lt (show k + 4 < s.cmdSet.size by omega) (slot.key.cell k)
    have writeVal := Block.set_of_lt (b := s.cmdSet.put (k + 4) (slot.key.cell k))
      (show k + digits arg.maxValSize + 27 < s.cmdSet.size by omega) (slot.val.cell k)
    simp only [assemble, readKey, readVal, writeGet, writeKey, writeVal, Exec.ok_bind]
    rfl
  · rw [← assembled_succ short, ← part.cells]
    rfl

/-- The third loop on one request. -/
theorem assemble_spec (supported : Supported arg) {slot : Slot} (prepared : Prepared arg f slot) :
    ∃ slot', Exec.forRange arg.maxKeySize (assemble arg) slot = .ok slot' ∧
      Assembling arg f slot 16 slot' := by
  rw [supported.keySize]
  refine Exec.forRange_rule (Assembling arg f slot) ?_ fun k s short part =>
    part.step supported prepared short
  refine ⟨rfl, rfl, prepared.cmdGet, prepared.size, ?_⟩
  funext p
  rw [assembled, if_neg (by omega), if_neg (by omega), prepared.cells]

/-- The characters that were drawn for a request. -/
structure Holds (arg : Arg) (drawn : Drawn) (f : Nat → UInt8) (i j : Nat) (slot : Slot) :
    Prop where
  size : slot.cmdSet.size = cmdLen arg
  cells : ∀ p, slot.cmdSet.cell p = assembled (digits arg.maxValSize) 16 (charsAt (setChars arg) f)
    (drawn.line i j).cell (drawn.char i j) p

theorem genTest_spec (supported : Supported arg) {drawn : Drawn} {fs : Nat → Nat → Nat → UInt8}
    {slots : Slots}
    (long : ∀ i < arg.numThreads, ∀ j < arg.runInstSize / arg.numThreads,
      16 ≤ (drawn.line i j).size)
    (prepared : ∀ i < arg.numThreads, ∀ j < arg.runInstSize / arg.numThreads,
      Prepared arg (fs i j) (slots i j)) :
    ∃ slots', genTest arg drawn slots = .ok slots' ∧
      ∀ i < arg.numThreads, ∀ j < arg.runInstSize / arg.numThreads,
        Holds arg drawn (fs i j) i j (slots' i j) := by
  have first : ∀ i < arg.numThreads, ∀ j < arg.runInstSize / arg.numThreads,
      ∃ slot, drawKey arg drawn i j (slots i j) = .ok slot ∧ Prepared arg (fs i j) slot ∧
        ∀ k < 16, slot.key.cell k = (drawn.line i j).cell k := by
    intro i lt j below
    have ready := prepared i lt j below
    obtain ⟨key, ran, size, cells⟩ := fill_spec (b := (slots i j).key) (n := arg.maxKeySize)
      (c := (drawn.line i j).cell) (Nat.le_of_eq (by rw [supported.keySize, ready.key]))
      fun k short b =>
        (show (do
          let c ← (drawn.line i j).get k
          b.set k c) = b.set k ((drawn.line i j).cell k) by
            have longer := long i lt j below
            rw [supported.keySize] at short
            rw [Block.get_of_lt (by omega)]
            rfl)
    refine ⟨{ slots i j with key }, by rw [drawKey, ran]; rfl,
      ⟨size.trans ready.key, ready.val, ready.cmdGet, ready.size, ready.cells⟩, ?_⟩
    rwa [supported.keySize] at cells
  obtain ⟨slots₁, ran₁, keys⟩ := forSlots_rule _ first
  have second : ∀ i < arg.numThreads, ∀ j < arg.runInstSize / arg.numThreads,
      ∃ slot, drawVal arg drawn i j (slots₁ i j) = .ok slot ∧ Prepared arg (fs i j) slot ∧
        (∀ k < 16, slot.key.cell k = (drawn.line i j).cell k) ∧
        ∀ k < 16, slot.val.cell k = drawn.char i j k := by
    intro i lt j below
    obtain ⟨ready, key⟩ := keys i lt j below
    obtain ⟨val, ran, size, cells⟩ := fill_spec (b := (slots₁ i j).val) (n := arg.maxValSize)
      (c := drawn.char i j) (Nat.le_of_eq ready.val.symm) fun k _ b => rfl
    refine ⟨{ slots₁ i j with val }, by rw [drawVal, ran]; rfl,
      ⟨ready.key, size.trans ready.val, ready.cmdGet, ready.size, ready.cells⟩, key, ?_⟩
    exact fun k short => cells k (Nat.lt_of_lt_of_le short supported.valSize_ge)
  obtain ⟨slots₂, ran₂, vals⟩ := forSlots_rule _ second
  have third : ∀ i < arg.numThreads, ∀ j < arg.runInstSize / arg.numThreads,
      ∃ slot, Exec.forRange arg.maxKeySize (assemble arg) (slots₂ i j) = .ok slot ∧
        Holds arg drawn (fs i j) i j slot := by
    intro i lt j below
    obtain ⟨ready, key, val⟩ := vals i lt j below
    obtain ⟨slot, ran, done⟩ := assemble_spec supported ready
    refine ⟨slot, ran, done.size, fun p => ?_⟩
    rw [done.cells, assembled, assembled]
    split
    · exact key _ (by omega)
    · split
      · exact val _ (by omega)
      · rfl
  obtain ⟨slots₃, ran₃, done⟩ := forSlots_rule _ third
  refine ⟨slots₃, ?_, done⟩
  rw [genTest, ran₁, Exec.ok_bind, ran₂]
  exact ran₃

/-! ## The bytes on the wire -/

/-- A well-formed set command of the text protocol, with flags and expiry zero. -/
def setCommand (key value : List UInt8) : List UInt8 :=
  text "set " ++ key ++ text " 0 0 " ++ ascii (Nat.toDigits 10 value.length) ++ crlf ++
    value ++ crlf

/-- The characters that the client generates. -/
def Printable (c : UInt8) : Prop := 33 ≤ c.toNat ∧ c.toNat ≤ 126

/-- The fixed text between key and value. -/
def middle (size : Nat) : List UInt8 :=
  text " 0 0 " ++ ascii (Nat.toDigits 10 size) ++ crlf

/-- The character of a set command at a position. -/
def commandAt (size : Nat) (key value : Nat → UInt8) (p : Nat) : UInt8 :=
  if p < 4 then (text "set ").getD p 0
  else if p < 20 then key (p - 4)
  else if p < 27 + digits size then (middle size).getD (p - 20) 0
  else if p < 27 + digits size + size then value (p - (27 + digits size))
  else crlf.getD (p - (27 + digits size + size)) 0

theorem middle_length {size : Nat} (known : size ∈ valueSizes) :
    (middle size).length = 7 + digits size := by
  have closed : ∀ size ∈ valueSizes, (middle size).length = 7 + digits size := by decide
  exact closed size known

theorem getD_append_eq {a b : List UInt8} {n : Nat} (length : a.length = n) (p : Nat) :
    (a ++ b).getD p 0 = if p < n then a.getD p 0 else b.getD (p - n) 0 := by
  subst length
  split
  · rename_i first
    exact List.getD_append _ _ _ _ first
  · rename_i last
    exact List.getD_append_right _ _ _ _ (Nat.le_of_not_lt last)

theorem getD_map_range {n : Nat} (f : Nat → UInt8) (lt : p < n) :
    ((List.range n).map f).getD p 0 = f p := by
  simp [List.getD_eq_getElem?_getD, lt]

theorem setCommand_eq {size : Nat} (known : size ∈ valueSizes) (key value : Nat → UInt8) :
    setCommand ((List.range 16).map key) ((List.range size).map value) =
      (List.range (29 + digits size + size)).map (commandAt size key value) := by
  have mid := middle_length known
  have parts : setCommand ((List.range 16).map key) ((List.range size).map value) =
      text "set " ++ ((List.range 16).map key ++ (middle size ++
        ((List.range size).map value ++ crlf))) := by
    simp [setCommand, middle, List.append_assoc]
  have head : (text "set ").length = 4 := rfl
  have tail : crlf.length = 2 := rfl
  have keyLength : ((List.range 16).map key).length = 16 := by simp
  have valLength : ((List.range size).map value).length = size := by simp
  rw [parts]
  refine List.ext_getElem ?_ fun p inside _ => ?_
  · simp only [List.length_append, List.length_map, List.length_range, mid, head, tail]
    omega
  · rw [← List.getD_eq_getElem _ 0 inside, List.getElem_map, List.getElem_range,
      getD_append_eq head, getD_append_eq keyLength, getD_append_eq mid, getD_append_eq valLength,
      commandAt]
    -- the positions of the five parts
    by_cases p₁ : p < 4
    · rw [if_pos p₁, if_pos p₁]
    rw [if_neg p₁, if_neg p₁]
    by_cases p₂ : p < 20
    · rw [if_pos p₂, if_pos (by omega), getD_map_range key (by omega)]
    rw [if_neg p₂, if_neg (by omega)]
    by_cases p₃ : p < 27 + digits size
    · rw [if_pos p₃, if_pos (by omega), Nat.sub_sub]
    rw [if_neg p₃, if_neg (by omega)]
    by_cases p₄ : p < 27 + digits size + size
    · rw [if_pos p₄, if_pos (by omega), getD_map_range value (by omega)]
      congr 1
      omega
    rw [if_neg p₄, if_neg (by omega)]
    congr 1
    omega

/-- The fixed positions hold the fixed text, whatever was in the buffer. -/
theorem Supported.fixedText (supported : Supported arg) (f key value : Nat → UInt8)
    (fixed : p < 4 ∨ 20 ≤ p ∧ p < 27 + digits arg.maxValSize ∨
      27 + digits arg.maxValSize + arg.maxValSize ≤ p ∧ p < cmdLen arg) :
    charsAt (setChars arg) f p = commandAt arg.maxValSize key value p := by
  have low : ∀ size ∈ valueSizes, ∀ p < 27 + digits size, p < 4 ∨ 20 ≤ p →
      p ∈ (setChars ⟨0, 16, size, 0⟩).map Prod.fst ∧
        charsAt (setChars ⟨0, 16, size, 0⟩) (fun _ => 0) p =
          commandAt size (fun _ => 0) (fun _ => 0) p := by decide +kernel
  have high : ∀ size ∈ valueSizes, ∀ p < 2,
      27 + digits size + size + p ∈ (setChars ⟨0, 16, size, 0⟩).map Prod.fst ∧
        charsAt (setChars ⟨0, 16, size, 0⟩) (fun _ => 0) (27 + digits size + size + p) =
          commandAt size (fun _ => 0) (fun _ => 0) (27 + digits size + size + p) := by
    decide +kernel
  have length := supported.cmdLen_eq
  have blind : commandAt arg.maxValSize key value p =
      commandAt arg.maxValSize (fun _ => 0) (fun _ => 0) p := by
    unfold commandAt
    split_ifs <;> first | rfl | omega
  have closed : p ∈ (setChars arg).map Prod.fst ∧ charsAt (setChars arg) (fun _ => 0) p =
      commandAt arg.maxValSize (fun _ => 0) (fun _ => 0) p := by
    rw [supported.setChars_eq]
    by_cases before : p < 27 + digits arg.maxValSize
    · exact low _ supported.valSize p before (by omega)
    · obtain ⟨q, rfl⟩ : ∃ q, p = 27 + digits arg.maxValSize + arg.maxValSize + q :=
        ⟨p - (27 + digits arg.maxValSize + arg.maxValSize), by omega⟩
      exact high _ supported.valSize q (by omega)
  rw [charsAt_of_mem closed.1 fun _ => 0, closed.2, blind]

/-- Between them nothing is written before `gen_test`. -/
theorem Supported.gap (supported : Supported arg) (f : Nat → UInt8)
    (above : 27 + digits arg.maxValSize ≤ p)
    (below : p < 27 + digits arg.maxValSize + arg.maxValSize) :
    charsAt (setChars arg) f p = f p := by
  have closed : ∀ size ∈ valueSizes, ∀ pc ∈ setChars ⟨0, 16, size, 0⟩,
      pc.1 < 27 + digits size ∨ 27 + digits size + size ≤ pc.1 := by decide
  apply charsAt_of_not_mem
  rw [List.mem_map]
  rintro ⟨pc, mem, rfl⟩
  rw [supported.setChars_eq] at mem
  have := closed _ supported.valSize pc mem
  omega

theorem Printable.ne_zero {c : UInt8} (printable : Printable c) : c ≠ 0 := by
  rintro rfl
  exact absurd printable.1 (by decide)

theorem commandAt_ne_zero (supported : Supported arg) {key value : Nat → UInt8}
    (keys : ∀ k < 16, Printable (key k)) (vals : ∀ k < arg.maxValSize, Printable (value k))
    (lt : p < cmdLen arg) : commandAt arg.maxValSize key value p ≠ 0 := by
  have head : ∀ p < 4, (text "set ").getD p 0 ≠ 0 := by decide
  have mid : ∀ size ∈ valueSizes, ∀ p < 7 + digits size, (middle size).getD p 0 ≠ 0 := by
    decide +kernel
  have tail : ∀ p < 2, crlf.getD p 0 ≠ 0 := by decide
  have length := supported.cmdLen_eq
  unfold commandAt
  split_ifs
  · exact head p ‹_›
  · exact (keys _ (by omega)).ne_zero
  · exact mid _ supported.valSize _ (by omega)
  · exact (vals _ (by omega)).ne_zero
  · exact tail _ (by omega)

/-- The buffer holds a well-formed command exactly when the memory of `malloc` held
the rest of the value. -/
theorem Holds.commandAt_iff (supported : Supported arg) {drawn : Drawn}
    {i j : Nat} {slot : Slot} (holds : Holds arg drawn f i j slot) :
    (∀ p < cmdLen arg, slot.cmdSet.cell p =
        commandAt arg.maxValSize (drawn.line i j).cell (drawn.char i j) p) ↔
      ∀ k, 16 ≤ k → k < arg.maxValSize →
        f (27 + digits arg.maxValSize + k) = drawn.char i j k := by
  have length := supported.cmdLen_eq
  have large := supported.valSize_ge
  -- the part of the value that `gen_test` does not copy
  have rest : ∀ k, 16 ≤ k → k < arg.maxValSize →
      slot.cmdSet.cell (27 + digits arg.maxValSize + k) = f (27 + digits arg.maxValSize + k) ∧
      commandAt arg.maxValSize (drawn.line i j).cell (drawn.char i j)
        (27 + digits arg.maxValSize + k) = drawn.char i j k := by
    intro k past below
    constructor
    · rw [holds.cells, assembled, if_neg (by omega), if_neg (by omega)]
      exact supported.gap f (by omega) (by omega)
    · rw [commandAt, if_neg (by omega), if_neg (by omega), if_neg (by omega), if_pos (by omega),
        Nat.add_sub_cancel_left]
  constructor
  · intro equal k past below
    obtain ⟨left, right⟩ := rest k past below
    rw [← left, ← right]
    exact equal _ (by omega)
  · intro equal p lt
    by_cases open_ : 43 + digits arg.maxValSize ≤ p ∧
        p < 27 + digits arg.maxValSize + arg.maxValSize
    · obtain ⟨k, rfl⟩ : ∃ k, p = 27 + digits arg.maxValSize + k :=
        ⟨p - (27 + digits arg.maxValSize), by omega⟩
      obtain ⟨left, right⟩ := rest k (by omega) (by omega)
      rw [left, right]
      exact equal k (by omega) (by omega)
    · rw [holds.cells, assembled]
      split_ifs with isKey isVal
      · rw [commandAt, if_neg (by omega), if_pos (by omega)]
      · rw [commandAt, if_neg (by omega), if_neg (by omega), if_neg (by omega), if_pos (by omega)]
      · exact supported.fixedText f _ _ (by omega)

/-- The request that a thread sends for a set is the well-formed command for the
drawn key and value exactly when the bytes of the value after the sixteenth stood
in its buffer already when `malloc` returned it. -/
theorem set_request_well_formed_iff (supported : Supported arg) (fresh : Fresh) (drawn : Drawn)
    (long : ∀ i < arg.numThreads, ∀ j < arg.runInstSize / arg.numThreads,
      16 ≤ (drawn.line i j).size)
    {i j : Nat} (thread : i < arg.numThreads) (index : j < arg.runInstSize / arg.numThreads)
    (keys : ∀ k < 16, Printable ((drawn.line i j).cell k))
    (vals : ∀ k < arg.maxValSize, Printable (drawn.char i j k)) :
    setRequest arg fresh drawn i j = .ok (setCommand ((List.range 16).map (drawn.line i j).cell)
        ((List.range arg.maxValSize).map (drawn.char i j))) ↔
      ∀ k, 16 ≤ k → k < arg.maxValSize →
        fresh.cmdSet i j (27 + digits arg.maxValSize + k) = drawn.char i j k := by
  obtain ⟨slots, ran, prepared⟩ := fileToMemory_spec supported fresh
  obtain ⟨slots', ran', done⟩ := genTest_spec supported long prepared
  have holds := done i thread j index
  have fits : cmdLen arg ≤ 8192 := by
    have closed : ∀ size ∈ valueSizes, 29 + digits size + size ≤ 8192 := by decide
    rw [supported.cmdLen_eq]
    exact closed _ supported.valSize
  obtain ⟨b, copied, -, cells⟩ := strncpy_spec
    (show cmdLen arg ≤ (⟨8192, fun _ => 0⟩ : Block UInt8).size from fits)
    (Nat.le_of_eq holds.size.symm)
  have sent : setRequest arg fresh drawn i j = .ok ((List.range (cmdLen arg)).map b.cell) := by
    rw [setRequest, ran, Exec.ok_bind, ran', Exec.ok_bind, sendSet, copied]
    rfl
  rw [sent, setCommand_eq supported.valSize, ← supported.cmdLen_eq, Except.ok.injEq,
    List.map_inj_left, ← holds.commandAt_iff supported,
    ← stringAt_eq_iff fun p lt => commandAt_ne_zero supported keys vals lt]
  constructor
  · intro same p lt
    rw [← cells p lt]
    exact same p (List.mem_range.mpr lt)
  · intro same p mem
    rw [cells p (List.mem_range.mp mem)]
    exact same p (List.mem_range.mp mem)

/-- One thread with one request, for a key of `k` and a value of `v` in fresh zeroed
memory. -/
def sampleArg (size : Nat) : Arg := ⟨1, 16, size, 1⟩

def sampleFresh : Fresh := ⟨fun _ _ _ => 0, fun _ _ _ => 0, fun _ _ _ => 0, fun _ _ _ => 0⟩

def sampleDrawn : Drawn := ⟨fun _ _ => ⟨16, fun _ => 107⟩, fun _ _ _ => 118⟩

theorem set_request_well_formed_sixteen :
    setRequest (sampleArg 16) sampleFresh sampleDrawn 0 0 =
      .ok (setCommand (List.replicate 16 107) (List.replicate 16 118)) := by
  have supported : Supported (sampleArg 16) := ⟨rfl, by decide⟩
  refine (set_request_well_formed_iff supported sampleFresh sampleDrawn
    (fun _ _ _ _ => Nat.le_refl 16) (by decide) (by decide)
    (fun _ _ => (show Printable 107 from ⟨by decide, by decide⟩))
    (fun _ _ => (show Printable 118 from ⟨by decide, by decide⟩))).mpr fun k past below => ?_
  exact absurd below (Nat.not_lt_of_le past)

/-- Of a value of 64 bytes only the first 16 are sent; zeroes follow. -/
theorem set_request_cut :
    ∃ bytes, setRequest (sampleArg 64) sampleFresh sampleDrawn 0 0 = .ok bytes ∧
      (bytes.drop 29).take 64 = List.replicate 16 118 ++ List.replicate 48 0 ∧
      bytes ≠ setCommand (List.replicate 16 107) (List.replicate 64 118) := by
  have facts : (do
      let bytes ← setRequest (sampleArg 64) sampleFresh sampleDrawn 0 0
      return (bytes.drop 29).take 64) =
      (.ok (List.replicate 16 118 ++ List.replicate 48 0) : Exec (List UInt8)) := by
    decide +kernel
  obtain ⟨bytes, sent, cut⟩ := Exec.bind_eq_ok.mp facts
  have cut := Except.ok.inj cut
  refine ⟨bytes, sent, cut, ?_⟩
  rintro rfl
  exact absurd cut (by decide +kernel)

end Kvsev.Client
