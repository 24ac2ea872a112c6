import Kvsev.Memory.Bytes
import Kvsev.Memory.Copies
import Mathlib.Data.List.Forall2

/-!
# The authentication file

`authfile_load` reads lines of the form `user:password` into one buffer of the size of the file
and keeps where the users and the passwords are. The next line overwrites the end of the one
before. `authfile_check` compares with what was kept.

A call of `fgets` reads one byte less than it has room for. There is no room for the last byte of
the file until one line end has been overwritten. So the password of a single line without a
line end loses its last byte. A line that fills the room of one call looks like the last
one, and the lines behind it are not read.
-/

namespace Kvsev.Server.Authfile

open Memory

/-! ## The code -/

def maxEntryLen : Nat := 256

def maxEntries : Nat := 8

/-- `auth_t`, with offsets into the buffer. -/
structure Entry where
  user : Nat
  ulen : Nat
  pass : Nat
  plen : Nat

/-- `main_auth_data` and the entries of `main_auth_entries` in use. -/
structure Auth where
  data : Block UInt8
  entries : List Entry

inductive AuthfileRet where
  | ok
  | openfail
  | statfail
  | malformed
  deriving DecidableEq, Repr

/-- A file, as far as it can be opened and its size be found. -/
inductive File where
  | missing
  | unknown
  | readable (contents : List UInt8)

/-- At most so many bytes, up to and with the first newline. -/
def lineOf : Nat → List UInt8 → List UInt8
  | 0, _ => []
  | _, [] => []
  | n + 1, c :: cs => if c = 10 then [10] else c :: lineOf n cs

/-- `fgets`. With room for nothing but the zero it does not look at the file. -/
def fgets (b : Block UInt8) (off n : Nat) (file : List UInt8) :
    Exec (Option (Block UInt8 × List UInt8)) := do
  if n = 0 ∨ 1 < n ∧ file = [] then return none
  let line := lineOf (n - 1) file
  let b ← b.memcpy off (.ofList (line ++ [0])) 0 (line.length + 1)
  return some (b, file.drop line.length)

/-- The loop over the characters of a line, with the number of rounds that are left. -/
def scanLoop (b : Block UInt8) (cur : Nat) : Nat → Nat → Bool → Entry → Exec (Nat × Bool × Entry)
  | 0, x, found, entry => .ok (x, found, entry)
  | rounds + 1, x, found, entry => do
    let c ← b.get (cur + x)
    if found = false then
      if c = 0 then return (x, found, entry)
      else if c = 58 then
        scanLoop b cur rounds (x + 1) true
          { entry with user := cur, ulen := x, pass := cur + x + 1 }
      else scanLoop b cur rounds (x + 1) found entry
    else if c = 10 ∨ c = 13 ∨ c = 0 then
      return (x, found, { entry with plen := x - (entry.ulen + 1) })
    else scanLoop b cur rounds (x + 1) found entry

/-- The loop over the lines, which ends at the latest when the entries are used up. Without a
result a line is malformed. -/
def loadLoop (authEnd : Nat) : Nat → Block UInt8 → Nat → List UInt8 → List Entry →
    Exec (Option (Block UInt8 × List Entry))
  | 0, b, _, _, entries => .ok (some (b, entries))
  | left + 1, b, cur, file, entries => do
    match ← fgets b cur (min (authEnd - cur) maxEntryLen) file with
    | none => return some (b, entries)
    | some (b, file) =>
      let (x, found, entry) ← scanLoop b cur maxEntryLen 0 false ⟨0, 0, 0, 0⟩
      if found = false then return none
      let entries := entries ++ [entry]
      if entries.length = maxEntries then return some (b, entries)
      if (← b.get (cur + x)) = 0 then return some (b, entries)
      loadLoop authEnd left b (cur + x) file entries

/-- `authfile_load`. After a failure the old entries are still there. -/
def authfileLoad (auth : Auth) : File → Exec (AuthfileRet × Auth)
  | .missing => .ok (.openfail, auth)
  | .unknown => .ok (.statfail, auth)
  | .readable file => do
    let data : Block UInt8 := ⟨file.length + 1, fun _ => 0⟩
    match ← loadLoop file.length maxEntries data 0 file [] with
    | none => return (.malformed, auth)
    | some (data, entries) => return (.ok, ⟨data, entries⟩)

/-- One round of `safe_memcmp`. -/
def memcmpRound (a : Block UInt8) (aoff : Nat) (b : Block UInt8) (boff x : Nat) (delta : UInt8) :
    Exec UInt8 := do
  return delta ||| ((← a.get (aoff + x)) ^^^ (← b.get (boff + x)))

/-- `safe_memcmp` -/
def safeMemcmp (a : Block UInt8) (aoff : Nat) (b : Block UInt8) (boff len : Nat) : Exec Bool := do
  let delta ← Exec.forRange len (memcmpRound a aoff b boff) 0
  return decide (delta = 0)

/-- A string of C, without its zero. -/
abbrev CString := { str : List UInt8 // 0 ∉ str }

/-- One round of `authfile_check`. -/
def entryMatches (data : Block UInt8) (user pass : CString) (e : Entry) : Exec Bool := do
  if user.val.length = e.ulen ∧ pass.val.length = e.plen then
    if ← safeMemcmp (.ofList user.val) 0 data e.user e.ulen then
      safeMemcmp (.ofList pass.val) 0 data e.pass e.plen
    else return false
  else return false

def checkLoop (data : Block UInt8) (user pass : CString) : List Entry → Exec Bool
  | [] => .ok false
  | e :: es => do
    if ← entryMatches data user pass e then return true else checkLoop data user pass es

/-- `authfile_check` -/
def authfileCheck (auth : Auth) (user pass : CString) : Exec Bool :=
  checkLoop auth.data user pass auth.entries

/-! ## Files of lines -/

/-- A well-formed line. Its line end may have a carriage return. -/
structure Line where
  user : List UInt8
  pass : List UInt8
  cr : Bool
  userClean : ∀ c ∈ user, c ≠ 0 ∧ c ≠ 10 ∧ c ≠ 58
  passClean : ∀ c ∈ pass, c ≠ 0 ∧ c ≠ 10 ∧ c ≠ 13
  short : user.length + 1 + pass.length < maxEntryLen

namespace Line

def text (l : Line) : List UInt8 := l.user ++ 58 :: l.pass

def ending (l : Line) : List UInt8 := if l.cr then [13, 10] else [10]

/-- What the line says. -/
def login (l : Line) : List UInt8 × List UInt8 := (l.user, l.pass)

end Line

/-- The bytes of a file, with or without a newline after the last line. -/
def contents : List Line → Bool → List UInt8
  | [], _ => []
  | l :: ls, newline =>
    l.text ++ if ls = [] ∧ newline = false then [] else l.ending ++ contents ls newline

/-- The lines up to the first one that leaves no room for its line end. -/
def kept : List Line → List Line
  | [] => []
  | l :: ls => if l.text.length + 1 = maxEntryLen then [l] else l :: kept ls

variable {b b' : Block UInt8} {cur off n x rounds left authEnd : Nat} {found : Bool}
  {entry : Entry} {entries : List Entry} {xs user pass tail file more : List UInt8} {c : UInt8}

/-! ## Comparing -/

theorem safeMemcmp_spec {a : Block UInt8} {aoff boff len : Nat} (left : aoff + len ≤ a.size)
    (right : boff + len ≤ b.size) :
    safeMemcmp a aoff b boff len = .ok (decide (a.slice aoff len = b.slice boff len)) := by
  have round : ∀ k delta, k < len → (delta = 0 ↔ a.slice aoff k = b.slice boff k) →
      ∃ delta', memcmpRound a aoff b boff k delta = .ok delta' ∧
        (delta' = 0 ↔ a.slice aoff (k + 1) = b.slice boff (k + 1)) := by
    intro k delta lt same
    refine ⟨delta ||| (a.cell (aoff + k) ^^^ b.cell (boff + k)), ?_, ?_⟩
    · rw [memcmpRound, Block.get_of_lt (by omega), Block.get_of_lt (by omega)]
      rfl
    · rw [UInt8.or_eq_zero_iff, UInt8.xor_eq_zero_iff, same, Block.slice_add, Block.slice_add]
      simp [Block.slice_succ]
  obtain ⟨delta, ran, same⟩ := Exec.forRange_rule
    (fun k delta => delta = 0 ↔ a.slice aoff k = b.slice boff k)
    (show (0 : UInt8) = 0 ↔ _ from ⟨fun _ => rfl, fun _ => rfl⟩) round
  rw [safeMemcmp, ran, Exec.ok_bind]
  simp only [same]
  rfl

/-! ## Reading a line -/

theorem length_lineOf_le (n : Nat) (file : List UInt8) : (lineOf n file).length ≤ n := by
  fun_induction lineOf n file with
  | case1 | case2 => exact Nat.zero_le _
  | case3 => exact Nat.succ_le_succ (Nat.zero_le _)
  | case4 n c cs other ih => exact Nat.succ_le_succ ih

/-- Bytes that are no newline are read as long as there is room. -/
theorem lineOf_append (clean : 10 ∉ xs) (le : xs.length ≤ n) (tail : List UInt8) :
    lineOf n (xs ++ tail) = xs ++ lineOf (n - xs.length) tail := by
  induction xs generalizing n with
  | nil => rfl
  | cons x xs ih =>
    obtain ⟨m, rfl⟩ : ∃ m, n = m + 1 := ⟨n - 1, by rw [List.length_cons] at le; omega⟩
    rw [List.mem_cons, not_or] at clean
    rw [List.length_cons] at le
    rw [List.cons_append, lineOf, if_neg (Ne.symm clean.1), ih clean.2 (by omega),
      List.length_cons, Nat.add_sub_add_right, List.cons_append]

/-- What a line that is read does to the buffer. -/
theorem fgets_spec (room : 0 < n) (input : file ≠ [] ∨ n = 1) (inside : off + n ≤ b.size) :
    ∃ b', fgets b off n file = .ok (some (b', file.drop (lineOf (n - 1) file).length)) ∧
      b'.size = b.size ∧
      b'.slice off ((lineOf (n - 1) file).length + 1) = lineOf (n - 1) file ++ [0] ∧
      ∀ j < off, b'.cell j = b.cell j := by
  have few := length_lineOf_le (n - 1) file
  obtain ⟨line, line_eq⟩ : ∃ l, lineOf (n - 1) file = l := ⟨_, rfl⟩
  rw [line_eq] at few ⊢
  have goesOn : ¬(n = 0 ∨ 1 < n ∧ file = []) := by
    rintro (none | ⟨more, empty⟩)
    · omega
    · exact input.elim (fun some => some empty) (fun one => by omega)
  obtain ⟨b', ran, copied⟩ := Block.memcpy_spec
    (show 0 + (line.length + 1) ≤ (Block.ofList (line ++ [0])).size by simp [Block.ofList])
    (show off + (line.length + 1) ≤ b.size by omega)
  have shows := copied.shows
  rw [show line.length + 1 = (line ++ [0]).length by simp, Block.slice_ofList] at shows
  refine ⟨b', ?_, copied.size, by simpa using shows, fun j lt => copied.others j (.inl lt)⟩
  simp only [fgets, if_neg goesOn, line_eq, ran, Exec.ok_bind]
  rfl

/-! ## Scanning a line -/

/-- Characters that mean nothing to the loop. -/
def Plain (found : Bool) (c : UInt8) : Prop :=
  if found then c ≠ 10 ∧ c ≠ 13 ∧ c ≠ 0 else c ≠ 0 ∧ c ≠ 58

theorem scanLoop_plain (shown : b.slice (cur + x) xs.length = xs)
    (inside : cur + x + xs.length ≤ b.size) (plain : ∀ c ∈ xs, Plain found c) :
    scanLoop b cur (xs.length + rounds) x found entry =
      scanLoop b cur rounds (x + xs.length) found entry := by
  induction xs generalizing x with
  | nil => rw [List.length_nil, Nat.zero_add, Nat.add_zero]
  | cons c cs ih =>
    rw [List.length_cons] at shown inside
    rw [Block.slice_succ, List.cons.injEq] at shown
    obtain ⟨here, rest⟩ := shown
    have next := ih (x := x + 1) rest (by omega) fun d mem => plain d (List.mem_cons_of_mem c mem)
    have first := plain c List.mem_cons_self
    rw [List.length_cons, Nat.add_right_comm, scanLoop, Block.get_of_lt (by omega), here,
      Exec.ok_bind, Nat.add_comm cs.length 1, ← Nat.add_assoc, ← next]
    cases found with
    | false =>
      obtain ⟨zero, colon⟩ : c ≠ 0 ∧ c ≠ 58 := first
      rw [if_pos rfl, if_neg zero, if_neg colon]
    | true =>
      obtain ⟨newline, cr, zero⟩ : c ≠ 10 ∧ c ≠ 13 ∧ c ≠ 0 := first
      rw [if_neg nofun, if_neg (by simp [newline, cr, zero])]

/-- A line without a colon. -/
theorem scanLoop_missing (shown : b.slice cur (xs.length + 1) = xs ++ [0])
    (inside : cur + xs.length < b.size) (short : xs.length < maxEntryLen)
    (plain : ∀ c ∈ xs, Plain false c) :
    scanLoop b cur maxEntryLen 0 false entry = .ok (xs.length, false, entry) := by
  obtain ⟨first, last⟩ := Block.slice_of_append shown
  obtain ⟨rounds, enough⟩ : ∃ r, maxEntryLen = xs.length + (r + 1) :=
    ⟨maxEntryLen - xs.length - 1, by omega⟩
  have here : b.cell (cur + xs.length) = 0 := by simpa [Block.slice_succ] using last
  rw [enough, scanLoop_plain first (by omega) plain, Nat.zero_add, scanLoop,
    Block.get_of_lt inside, here]
  rfl

/-- The entry for a line. -/
def entryOf (cur : Nat) (user pass : List UInt8) : Entry :=
  ⟨cur, user.length, cur + user.length + 1, pass.length⟩

/-- A line that is found at a place of the buffer, with the character that ends it. -/
theorem scanLoop_found
    (shown : b.slice cur (user.length + (pass.length + 2)) = user ++ 58 :: (pass ++ [c]))
    (inside : cur + user.length + 1 + pass.length < b.size)
    (short : user.length + 1 + pass.length < maxEntryLen) (userPlain : ∀ c ∈ user, Plain false c)
    (passPlain : ∀ c ∈ pass, Plain true c) (ends : c = 10 ∨ c = 13 ∨ c = 0) :
    scanLoop b cur maxEntryLen 0 false entry =
      .ok (user.length + 1 + pass.length, true, entryOf cur user pass) := by
  obtain ⟨first, later⟩ := Block.slice_of_append shown
  obtain ⟨rounds, enough⟩ :
      ∃ r, maxEntryLen = user.length + (pass.length + (r + 1) + 1) :=
    ⟨maxEntryLen - user.length - pass.length - 2, by omega⟩
  have colon : b.cell (cur + user.length) = 58 ∧
      b.slice (cur + (user.length + 1)) (pass.length + 1) = pass ++ [c] := by
    simpa [Block.slice_succ, Nat.add_assoc] using later
  obtain ⟨second, last⟩ := Block.slice_of_append colon.2
  have here : b.cell (cur + (user.length + 1 + pass.length)) = c := by
    simpa [Block.slice_succ, Nat.add_assoc] using last
  rw [enough, scanLoop_plain first (by omega) userPlain, Nat.zero_add, scanLoop,
    Block.get_of_lt (by omega), colon.1, Exec.ok_bind, if_pos rfl, if_neg (by decide),
    if_pos rfl, scanLoop_plain second (by omega) passPlain, scanLoop,
    Block.get_of_lt (by omega), here, Exec.ok_bind, if_neg nofun, if_pos ends]
  have plen : user.length + 1 + pass.length - (user.length + 1) = pass.length := by omega
  simp only [plen]
  rfl

/-! ## Entries -/

/-- The entry points to a user and a password in the part of the buffer before a place. -/
structure Shows (b : Block UInt8) (limit : Nat) (e : Entry) (login : List UInt8 × List UInt8) :
    Prop where
  user : b.slice e.user e.ulen = login.1
  pass : b.slice e.pass e.plen = login.2
  userEnd : e.user + e.ulen ≤ limit
  passEnd : e.pass + e.plen ≤ limit

theorem Shows.mono {limit limit' : Nat} {login : List UInt8 × List UInt8}
    (shows : Shows b limit entry login) (same : ∀ j < limit, b'.cell j = b.cell j)
    (le : limit ≤ limit') : Shows b' limit' entry login := by
  obtain ⟨user, pass, userEnd, passEnd⟩ := shows
  refine ⟨?_, ?_, by omega, by omega⟩
  · rw [Block.slice_congr fun j _ lt => same j (by omega), user]
  · rw [Block.slice_congr fun j _ lt => same j (by omega), pass]

theorem shows_entryOf (shown : b.slice cur (user.length + (pass.length + 2)) =
    user ++ 58 :: (pass ++ [c])) :
    Shows b (cur + (user.length + 1 + pass.length)) (entryOf cur user pass) (user, pass) := by
  obtain ⟨first, later⟩ := Block.slice_of_append shown
  have second : b.slice (cur + user.length + 1) (pass.length + 1) = pass ++ [c] := by
    simpa [Block.slice_succ] using (List.cons.inj (by simpa [Block.slice_succ] using later)).2
  refine ⟨first, (Block.slice_of_append second).1, ?_, ?_⟩ <;> simp only [entryOf] <;> omega

/-! ## One round of the loop over the lines -/

section

/-- The bytes that one call of `fgets` reads. -/
abbrev nextLine (authEnd cur : Nat) (file : List UInt8) : List UInt8 :=
  lineOf (min (authEnd - cur) maxEntryLen - 1) file

/-- There is something to read and room for it. -/
structure Ready (authEnd : Nat) (b : Block UInt8) (cur : Nat) (file : List UInt8) : Prop where
  size : b.size = authEnd + 1
  room : cur < authEnd
  input : file ≠ [] ∨ min (authEnd - cur) maxEntryLen = 1

theorem Ready.fgets (ready : Ready authEnd b cur file) :
    ∃ b', fgets b cur (min (authEnd - cur) maxEntryLen) file =
        .ok (some (b', file.drop (nextLine authEnd cur file).length)) ∧
      b'.size = b.size ∧
      b'.slice cur ((nextLine authEnd cur file).length + 1) = nextLine authEnd cur file ++ [0] ∧
      ∀ j < cur, b'.cell j = b.cell j := by
  obtain ⟨size, room, input⟩ := ready
  have most : 0 < maxEntryLen := by decide
  exact fgets_spec (by omega) input (by omega)

theorem nextLine_lt (ready : Ready authEnd b cur file) :
    (nextLine authEnd cur file).length < maxEntryLen ∧
      cur + (nextLine authEnd cur file).length < authEnd := by
  have le : (nextLine authEnd cur file).length ≤ _ := length_lineOf_le _ file
  have room := ready.room
  have most : 0 < maxEntryLen := by decide
  omega

theorem loadLoop_malformed (ready : Ready authEnd b cur file)
    (plain : ∀ c ∈ nextLine authEnd cur file, Plain false c) :
    loadLoop authEnd (left + 1) b cur file entries = .ok none := by
  obtain ⟨b', ran, size, shown, -⟩ := ready.fgets
  obtain ⟨short, inside⟩ := nextLine_lt ready
  have whole := ready.size
  rw [loadLoop, ran, Exec.ok_bind]
  simp only [scanLoop_missing shown (by omega) short plain, Exec.ok_bind]
  rfl

/-- A line with a colon becomes an entry. The loop goes on behind it, unless it was the last
entry or the last line. -/
theorem loadLoop_entry (left : Nat) (entries : List Entry) (ready : Ready authEnd b cur file)
    (line : nextLine authEnd cur file ++ [0] = user ++ 58 :: (pass ++ c :: more))
    (userPlain : ∀ c ∈ user, Plain false c) (passPlain : ∀ c ∈ pass, Plain true c)
    (ends : c = 10 ∨ c = 13 ∨ c = 0) :
    ∃ b', b'.size = b.size ∧ (∀ j < cur, b'.cell j = b.cell j) ∧
      Shows b' (cur + (user.length + 1 + pass.length)) (entryOf cur user pass) (user, pass) ∧
      loadLoop authEnd (left + 1) b cur file entries =
        if entries.length + 1 = maxEntries ∨ c = 0 then
          .ok (some (b', entries ++ [entryOf cur user pass]))
        else loadLoop authEnd left b' (cur + (user.length + 1 + pass.length))
          (file.drop (nextLine authEnd cur file).length) (entries ++ [entryOf cur user pass]) := by
  obtain ⟨b', ran, size, shown, same⟩ := ready.fgets
  obtain ⟨short, inside⟩ := nextLine_lt ready
  have whole := ready.size
  have length := congrArg List.length line
  simp only [List.length_append, List.length_cons, List.length_nil] at length
  have shown' : b'.slice cur (user.length + (pass.length + 2)) = user ++ 58 :: (pass ++ [c]) := by
    have split : user ++ 58 :: (pass ++ c :: more) = (user ++ 58 :: (pass ++ [c])) ++ more := by
      simp
    rw [line, split] at shown
    simpa using (Block.slice_of_append shown).1
  have last : b'.cell (cur + (user.length + 1 + pass.length)) = c := by
    have later := (Block.slice_of_append shown').2
    rw [← List.cons_append] at later
    have place : cur + (user.length + 1 + pass.length) =
        cur + user.length + (58 :: pass).length := by
      rw [List.length_cons]
      omega
    rw [place]
    simpa [Block.slice_succ] using (Block.slice_of_append later).2
  refine ⟨b', size, same, shows_entryOf shown', ?_⟩
  rw [loadLoop, ran, Exec.ok_bind]
  simp only [scanLoop_found shown' (by omega) (by omega) userPlain passPlain ends, Exec.ok_bind,
    Block.get_of_lt (show cur + (user.length + 1 + pass.length) < b'.size by omega), last,
    List.length_append, List.length_singleton]
  by_cases full : entries.length + 1 = maxEntries
  · simp [full]
  · by_cases zero : c = 0
    · simp [full, zero]
    · simp [full, zero]

end

/-! ## The lines of a file -/

variable {l : Line} {ls : List Line} {newline : Bool}

theorem Line.length_text (l : Line) : l.text.length = l.user.length + 1 + l.pass.length := by
  rw [text, List.length_append, List.length_cons]
  omega

theorem Line.text_clean (l : Line) : 10 ∉ l.text := by
  rw [text, List.mem_append, List.mem_cons]
  rintro (mem | eq | mem)
  · exact (l.userClean 10 mem).2.1 rfl
  · cases eq
  · exact (l.passClean 10 mem).2.1 rfl

theorem Line.userPlain (l : Line) : ∀ c ∈ l.user, Plain false c := fun c mem =>
  ⟨(l.userClean c mem).1, (l.userClean c mem).2.2⟩

theorem Line.passPlain (l : Line) : ∀ c ∈ l.pass, Plain true c := fun c mem =>
  ⟨(l.passClean c mem).2.1, (l.passClean c mem).2.2, (l.passClean c mem).1⟩

theorem Line.ending_ne_nil (l : Line) : l.ending ≠ [] := by
  rw [ending]
  split <;> exact List.cons_ne_nil _ _

/-- What stands behind a line. -/
def behind (l : Line) (ls : List Line) (newline : Bool) : List UInt8 :=
  if ls = [] ∧ newline = false then [] else l.ending ++ contents ls newline

theorem contents_cons : contents (l :: ls) newline = l.text ++ behind l ls newline := rfl

theorem length_behind (l : Line) (newline : Bool) (more : ls ≠ []) :
    2 ≤ (behind l ls newline).length := by
  obtain ⟨l', ls, rfl⟩ := List.exists_cons_of_ne_nil more
  have first := List.length_pos_iff.mpr l.ending_ne_nil
  rw [behind, if_neg (by simp), contents_cons, List.length_append, List.length_append,
    Line.length_text]
  omega

theorem behind_ne_nil (l : Line) (more : ls ≠ [] ∨ newline = true) : behind l ls newline ≠ [] := by
  have not : ¬(ls = [] ∧ newline = false) := by
    rintro ⟨last, none⟩
    exact more.elim (fun more => more last) (fun newline => by simp [newline] at none)
  rw [behind, if_neg not]
  exact List.append_ne_nil_of_left_ne_nil l.ending_ne_nil _

/-- What is read behind a line: nothing, its line end or only the carriage return. -/
theorem lineOf_behind (l : Line) (ls : List Line) (newline : Bool) (k : Nat) :
    lineOf k (behind l ls newline) = [] ∧ (k = 0 ∨ ls = []) ∨
    1 ≤ k ∧ lineOf k (behind l ls newline) = l.ending ∧
      behind l ls newline = l.ending ++ contents ls newline ∨
    1 ≤ k ∧ lineOf k (behind l ls newline) = [13] ∧
      behind l ls newline = [13] ++ 10 :: contents ls newline := by
  cases k with
  | zero => exact .inl ⟨rfl, .inl rfl⟩
  | succ k =>
    rw [behind]
    split
    · rename_i last
      exact .inl ⟨rfl, .inr last.1⟩
    cases cr : l.cr with
    | false => exact .inr (.inl ⟨by omega, by simp [Line.ending, cr, lineOf], rfl⟩)
    | true =>
      cases k with
      | zero => exact .inr (.inr ⟨by omega, by simp [Line.ending, cr, lineOf],
          by simp [Line.ending, cr]⟩)
      | succ k => exact .inr (.inl ⟨by omega, by simp [Line.ending, cr, lineOf], rfl⟩)

theorem Line.ending_cases (l : Line) : ∃ c more, l.ending = c :: more ∧ (c = 10 ∨ c = 13) := by
  rw [ending]
  split
  · exact ⟨13, [10], rfl, .inr rfl⟩
  · exact ⟨10, [], rfl, .inl rfl⟩

theorem nonzero (breaks : c = 10 ∨ c = 13) : c ≠ 0 := by
  rintro rfl
  exact absurd breaks (by decide)

theorem kept_of_last (last : l.text.length + 1 = maxEntryLen ∨ ls = []) : kept (l :: ls) = [l] := by
  rw [kept]
  split
  · rfl
  · rename_i short
    rw [last.resolve_left short]
    rfl

/-- The loop returns. If the file is accepted, its entries show these logins. -/
def Yields (authEnd : Nat) (logins : List (List UInt8 × List UInt8))
    (load : Exec (Option (Block UInt8 × List Entry))) : Prop :=
  ∃ result, load = .ok result ∧ ∀ b entries, result = some (b, entries) →
    b.size = authEnd + 1 ∧ List.Forall₂ (Shows b authEnd) entries logins

variable {logins : List (List UInt8 × List UInt8)}

theorem yields_malformed : Yields authEnd logins (.ok none) := ⟨none, rfl, nofun⟩

theorem yields_some {limit : Nat} (size : b.size = authEnd + 1) (le : limit ≤ authEnd)
    (shows : List.Forall₂ (Shows b limit) entries logins) :
    Yields authEnd logins (.ok (some (b, entries))) := by
  refine ⟨some (b, entries), rfl, ?_⟩
  rintro _ _ ⟨⟩
  exact ⟨size, shows.imp fun _ _ shows => shows.mono (fun _ _ => rfl) le⟩

/-- The round for a well-formed line, with the character that ends it in the buffer. -/
theorem loadLoop_line (left : Nat) (ready : Ready authEnd b cur file)
    (line : nextLine authEnd cur file = l.text ++ tail) (stop : tail ++ [0] = c :: more)
    (ends : c = 10 ∨ c = 13 ∨ c = 0) (shows : List.Forall₂ (Shows b cur) entries logins) :
    ∃ b' entry, b'.size = b.size ∧
      List.Forall₂ (Shows b' (cur + l.text.length)) (entries ++ [entry]) (logins ++ [l.login]) ∧
      loadLoop authEnd (left + 1) b cur file entries =
        if entries.length + 1 = maxEntries ∨ c = 0 then .ok (some (b', entries ++ [entry]))
        else loadLoop authEnd left b' (cur + l.text.length)
          (file.drop (l.text.length + tail.length)) (entries ++ [entry]) := by
  have whole : nextLine authEnd cur file ++ [0] = l.user ++ 58 :: (l.pass ++ c :: more) := by
    rw [line, List.append_assoc, stop, Line.text, List.append_assoc, List.cons_append]
  obtain ⟨b', size, same, last, ran⟩ :=
    loadLoop_entry left entries ready whole l.userPlain l.passPlain ends
  rw [line, List.length_append] at ran
  rw [← l.length_text] at last ran
  exact ⟨b', _, size, List.rel_append
    (shows.imp fun _ _ shows => shows.mono same (Nat.le_add_right _ _)) (.cons last .nil), ran⟩

/-- Nothing is left to read. -/
theorem loadLoop_nil (size : b.size = authEnd + 1) (le : cur ≤ authEnd)
    (shows : List.Forall₂ (Shows b cur) entries logins) :
    Yields authEnd logins (loadLoop authEnd left b cur [] entries) := by
  cases left with
  | zero => exact yields_some size le shows
  | succ left =>
    by_cases one : min (authEnd - cur) maxEntryLen = 1
    · -- there is only room for the zero, and the line seems to be empty
      have ready : Ready authEnd b cur [] := ⟨size, by omega, .inr one⟩
      rw [loadLoop_malformed ready (by rw [nextLine, one]; nofun)]
      exact yields_malformed
    have done : min (authEnd - cur) maxEntryLen = 0 ∨
        1 < min (authEnd - cur) maxEntryLen ∧ ([] : List UInt8) = [] := by
      by_cases zero : min (authEnd - cur) maxEntryLen = 0
      · exact .inl zero
      · exact .inr ⟨by omega, rfl⟩
    rw [loadLoop, fgets, if_pos done]
    exact yields_some size le shows

/-- A newline alone is malformed. -/
theorem loadLoop_newline (size : b.size = authEnd + 1) (room : cur + 1 < authEnd) :
    loadLoop authEnd (left + 1) b cur (10 :: file) entries = .ok none := by
  have ready : Ready authEnd b cur (10 :: file) := ⟨size, by omega, .inl (List.cons_ne_nil _ _)⟩
  obtain ⟨k, fits⟩ : ∃ k, min (authEnd - cur) maxEntryLen - 1 = k + 1 :=
    ⟨min (authEnd - cur) maxEntryLen - 2, by rw [maxEntryLen]; omega⟩
  refine loadLoop_malformed ready fun c mem => ?_
  rw [nextLine, fits, lineOf, if_pos rfl, List.mem_singleton] at mem
  rw [mem]
  exact ⟨by decide, by decide⟩

/-- The room for a line is enough, and it is used up only if the line is long or the last
one. -/
theorem room_for_line {slack : Nat}
    (room : authEnd = cur + (l.text.length + (behind l ls newline).length) + slack)
    (enough : 1 ≤ slack ∨ newline = true ∨ ls ≠ []) :
    ∃ k, min (authEnd - cur) maxEntryLen - 1 = l.text.length + k ∧
      (k = 0 → l.text.length + 1 = maxEntryLen ∨ ls = []) := by
  have short : l.text.length < maxEntryLen := by rw [l.length_text]; exact l.short
  have some : 1 ≤ (behind l ls newline).length + slack := by
    obtain slack | more := enough
    · omega
    · have := List.length_pos_iff.mpr (behind_ne_nil l more.symm)
      omega
  refine ⟨min (authEnd - cur) maxEntryLen - 1 - l.text.length, by omega, fun zero => ?_⟩
  by_cases more : ls ≠ []
  · have := length_behind l newline more
    exact .inl (by omega)
  · exact .inr (not_not.mp more)

/-- The logins that are found in the rest of a file, unless it is malformed. There is
some room besides that for the rest of the file: one or two bytes for each line before. -/
theorem loadLoop_lines {slack : Nat} (few : ls.length ≤ left)
    (total : left + entries.length = maxEntries) (size : b.size = authEnd + 1)
    (room : authEnd = cur + (contents ls newline).length + slack)
    (enough : 1 ≤ slack ∨ newline = true ∨ ls.length ≠ 1)
    (shows : List.Forall₂ (Shows b cur) entries logins) :
    Yields authEnd (logins ++ (kept ls).map Line.login)
      (loadLoop authEnd left b cur (contents ls newline) entries) := by
  induction ls generalizing left b cur entries logins slack with
  | nil =>
    rw [kept, List.map_nil, List.append_nil]
    exact loadLoop_nil size (by omega) shows
  | cons l ls ih =>
    obtain ⟨left, rfl⟩ : ∃ m, left = m + 1 := ⟨left - 1, by rw [List.length_cons] at few; omega⟩
    rw [List.length_cons] at few
    rw [contents_cons, List.length_append] at room
    have nonempty : l.text ≠ [] := List.append_ne_nil_of_right_ne_nil _ (List.cons_ne_nil _ _)
    have ready : Ready authEnd b cur (contents (l :: ls) newline) := by
      have := List.length_pos_iff.mpr nonempty
      exact ⟨size, by omega, .inl (List.append_ne_nil_of_left_ne_nil nonempty _)⟩
    obtain ⟨k, fits, last⟩ := room_for_line room
      (by simpa [List.length_eq_zero_iff] using enough)
    have line : nextLine authEnd cur (contents (l :: ls) newline) =
        l.text ++ lineOf k (behind l ls newline) := by
      rw [nextLine, fits, contents_cons, lineOf_append l.text_clean (Nat.le_add_right _ _),
        Nat.add_sub_cancel_left]
    have only : entries.length + 1 = maxEntries → ls = [] := fun full =>
      List.eq_nil_of_length_eq_zero (by omega)
    obtain ⟨nothing, ends⟩ | ⟨some, whole, rest⟩ | ⟨some, partly, rest⟩ :=
      lineOf_behind l ls newline k
    · -- the zero comes right behind the line
      rw [nothing] at line
      obtain ⟨b', entry, same, shows', ran⟩ :=
        loadLoop_line left ready line rfl (.inr (.inr rfl)) shows
      rw [ran, if_pos (.inr rfl), kept_of_last (ends.elim last .inr)]
      exact yields_some (same.trans size) (by omega) shows'
    · obtain ⟨c, more, ending, breaks⟩ := l.ending_cases
      have stop : l.ending ++ [0] = c :: (more ++ [0]) := by rw [ending, List.cons_append]
      rw [whole] at line
      obtain ⟨b', entry, same, shows', ran⟩ :=
        loadLoop_line left ready line stop (by tauto) shows
      rw [ran]
      split
      · rename_i stopped
        rw [kept_of_last (.inr (only (stopped.resolve_right (nonzero breaks))))]
        exact yields_some (same.trans size) (by omega) shows'
      rename_i goesOn
      have shorter : l.text.length + 1 ≠ maxEntryLen := by omega
      rw [kept, if_neg shorter, List.map_cons, ← List.singleton_append, ← List.append_assoc,
        contents_cons, rest, ← List.append_assoc, List.drop_left' (by simp)]
      rw [rest, List.length_append] at room
      have ends := List.length_pos_iff.mpr l.ending_ne_nil
      have room' : authEnd = cur + l.text.length + (contents ls newline).length +
          (slack + l.ending.length) := by omega
      exact ih (by omega) (by rw [List.length_append, List.length_singleton]; omega)
        (same.trans size) room' (.inl (by omega)) shows'
    · rw [partly] at line
      obtain ⟨b', entry, same, shows', ran⟩ :=
        loadLoop_line left ready line rfl (.inr (.inl rfl)) shows
      rw [ran]
      split
      · rename_i stopped
        rw [kept_of_last (.inr (only (stopped.resolve_right (by decide))))]
        exact yields_some (same.trans size) (by omega) shows'
      -- the newline that was not read is taken for a line
      rename_i goesOn
      obtain ⟨left, rfl⟩ : ∃ m, left = m + 1 := ⟨left - 1, by omega⟩
      rw [contents_cons, rest, ← List.append_assoc, List.drop_left' (by simp)]
      rw [rest, List.length_append, List.length_singleton, List.length_cons] at room
      rw [loadLoop_newline (same.trans size) (by omega)]
      exact yields_malformed

/-! ## Checking a login -/

theorem entryMatches_spec {limit : Nat} {login : List UInt8 × List UInt8}
    (shows : Shows b limit entry login) (le : limit ≤ b.size) (user pass : CString) :
    entryMatches b user pass entry = .ok (decide (login = (user.val, pass.val))) := by
  obtain ⟨user, _⟩ := user
  obtain ⟨pass, _⟩ := pass
  obtain ⟨showsUser, showsPass, userEnd, passEnd⟩ := shows
  obtain ⟨user', pass'⟩ := login
  have ulen : user'.length = entry.ulen := by simpa using congrArg List.length showsUser.symm
  have plen : pass'.length = entry.plen := by simpa using congrArg List.length showsPass.symm
  rw [entryMatches]
  by_cases lengths : user.length = entry.ulen ∧ pass.length = entry.plen
  · rw [if_pos lengths, ← lengths.1, ← lengths.2]
    rw [← lengths.1] at showsUser userEnd
    rw [← lengths.2] at showsPass passEnd
    rw [safeMemcmp_spec (by simp [Block.ofList]) (by omega),
      safeMemcmp_spec (by simp [Block.ofList]) (by omega), Block.slice_ofList,
      Block.slice_ofList, showsUser, showsPass, Exec.ok_bind]
    by_cases same : user = user'
    · simp [same, eq_comm]
    · simp [same, Ne.symm same]
  · rw [if_neg lengths]
    have other : ¬(user', pass') = (user, pass) := by
      intro same
      cases same
      exact lengths ⟨ulen, plen⟩
    rw [decide_eq_false other]
    rfl

theorem checkLoop_spec {limit : Nat} (shows : List.Forall₂ (Shows b limit) entries logins)
    (le : limit ≤ b.size) (user pass : CString) :
    checkLoop b user pass entries = .ok (decide ((user.val, pass.val) ∈ logins)) := by
  induction shows with
  | nil => rfl
  | @cons e login es logins first _ ih =>
    rw [checkLoop, entryMatches_spec first le, Exec.ok_bind, ih]
    by_cases same : login = (user.val, pass.val)
    · simp [same]
    · simp [same, Ne.symm same]

theorem authfileLoad_yields {file : List UInt8} (old : Auth)
    (yields : Yields file.length logins
      (loadLoop file.length maxEntries ⟨file.length + 1, fun _ => 0⟩ 0 file [])) :
    ∃ ret auth, authfileLoad old (.readable file) = .ok (ret, auth) ∧
      (ret = .ok → ∀ user pass, authfileCheck auth user pass =
        .ok (decide ((user.val, pass.val) ∈ logins))) := by
  obtain ⟨result, ran, accepted⟩ := yields
  rw [authfileLoad, ran, Exec.ok_bind]
  cases result with
  | none => exact ⟨.malformed, old, rfl, nofun⟩
  | some loaded =>
    obtain ⟨data, entries⟩ := loaded
    obtain ⟨size, shows⟩ := accepted data entries rfl
    exact ⟨.ok, ⟨data, entries⟩, rfl, fun _ =>
      checkLoop_spec shows (show file.length ≤ data.size by omega)⟩

/-- A single line without a newline loses its last byte. -/
theorem loadLoop_single (l : Line) :
    (l.pass = [] ∧ loadLoop l.text.length maxEntries ⟨l.text.length + 1, fun _ => 0⟩ 0 l.text [] =
      .ok none) ∨
    l.pass ≠ [] ∧ Yields l.text.length [(l.user, l.pass.dropLast)]
      (loadLoop l.text.length maxEntries ⟨l.text.length + 1, fun _ => 0⟩ 0 l.text []) := by
  have nonempty : l.text ≠ [] := List.append_ne_nil_of_right_ne_nil _ (List.cons_ne_nil _ _)
  have some := List.length_pos_iff.mpr nonempty
  have short : l.text.length < maxEntryLen := by rw [l.length_text]; exact l.short
  have ready : Ready l.text.length ⟨l.text.length + 1, fun _ => 0⟩ 0 l.text :=
    ⟨rfl, some, .inl nonempty⟩
  have line : nextLine l.text.length 0 l.text = l.text.dropLast := by
    have clean : 10 ∉ l.text.dropLast := fun mem =>
      l.text_clean ((List.dropLast_sublist _).subset mem)
    have room : min (l.text.length - 0) maxEntryLen - 1 = l.text.dropLast.length := by
      rw [List.length_dropLast]
      omega
    have read := lineOf_append clean (Nat.le_refl _) [l.text.getLast nonempty]
    rw [List.dropLast_append_getLast nonempty, Nat.sub_self, lineOf, List.append_nil] at read
    rw [nextLine, room, read]
  by_cases empty : l.pass = []
  · refine .inl ⟨empty, loadLoop_malformed ready ?_⟩
    rw [line, Line.text, empty, List.dropLast_concat]
    exact l.userPlain
  refine .inr ⟨empty, ?_⟩
  have whole : nextLine l.text.length 0 l.text ++ [0] =
      l.user ++ 58 :: (l.pass.dropLast ++ 0 :: []) := by
    rw [line, Line.text, List.dropLast_append_of_ne_nil (List.cons_ne_nil _ _),
      List.dropLast_cons_of_ne_nil empty, List.append_assoc, List.cons_append]
  obtain ⟨b', size, -, last, ran⟩ := loadLoop_entry (maxEntries - 1) [] ready whole l.userPlain
    (fun c mem => l.passPlain c ((List.dropLast_sublist _).subset mem)) (.inr (.inr rfl))
  rw [if_pos (.inr rfl)] at ran
  rw [show maxEntries = maxEntries - 1 + 1 from rfl, ran]
  refine yields_some size ?_ (.cons last .nil)
  rw [l.length_text, List.length_dropLast]
  omega

/-- No line is lost: it is not a single line without a newline, and the lines behind one that is
as long as a line can be say nothing new. -/
def Complete (ls : List Line) (newline : Bool) : Prop :=
  (newline = true ∨ ls.length ≠ 1) ∧ ∀ l ∈ ls, ∃ k ∈ kept ls, k.login = l.login

theorem mem_of_mem_kept {k : Line} (mem : k ∈ kept ls) : k ∈ ls := by
  induction ls with
  | nil => exact mem
  | cons l ls ih =>
    rw [kept] at mem
    split at mem
    · exact List.mem_cons.mpr (.inl (List.mem_singleton.mp mem))
    · exact List.mem_cons.mpr ((List.mem_cons.mp mem).imp id ih)

theorem Line.user_string (l : Line) : 0 ∉ l.user := fun mem => (l.userClean 0 mem).1 rfl

theorem Line.pass_string (l : Line) : 0 ∉ l.pass := fun mem => (l.passClean 0 mem).1 rfl

theorem mem_logins {user pass : List UInt8} :
    (user, pass) ∈ ls.map Line.login ↔ ∃ l ∈ ls, l.user = user ∧ l.pass = pass := by
  simp [Line.login, List.mem_map, Prod.ext_iff]

/-- Checking against the lines that were kept is checking against all lines exactly if the
others say nothing new. -/
theorem check_kept_iff :
    (∀ user pass : CString, decide ((user.val, pass.val) ∈ (kept ls).map Line.login) =
      decide (∃ l ∈ ls, l.user = user.val ∧ l.pass = pass.val)) ↔
      ∀ l ∈ ls, ∃ k ∈ kept ls, k.login = l.login := by
  constructor
  · intro same l mem
    have here := same ⟨l.user, l.user_string⟩ ⟨l.pass, l.pass_string⟩
    rw [decide_eq_decide] at here
    obtain ⟨k, mem, login⟩ := List.mem_map.mp (here.mpr ⟨l, mem, rfl, rfl⟩)
    exact ⟨k, mem, login⟩
  · intro covers user pass
    rw [decide_eq_decide, mem_logins]
    constructor
    · rintro ⟨k, mem, eq⟩
      exact ⟨k, mem_of_mem_kept mem, eq⟩
    · rintro ⟨l, mem, eqUser, eqPass⟩
      obtain ⟨k, kept, same⟩ := covers l mem
      obtain ⟨sameUser, samePass⟩ := Prod.mk.inj same
      exact ⟨k, kept, sameUser.trans eqUser, samePass.trans eqPass⟩

/-- For every file of at most eight lines that is accepted, exactly the logins of its lines
pass the check, if and only if no line is lost. -/
theorem authfile_check_iff (ls : List Line) (newline : Bool) (few : ls.length ≤ maxEntries)
    (old : Auth) : ∃ ret auth,
      authfileLoad old (.readable (contents ls newline)) = .ok (ret, auth) ∧
      (ret = .ok →
        ((∀ user pass : CString, authfileCheck auth user pass =
          .ok (decide (∃ l ∈ ls, l.user = user.val ∧ l.pass = pass.val))) ↔
        Complete ls newline)) := by
  by_cases enough : newline = true ∨ ls.length ≠ 1
  · obtain ⟨ret, auth, ran, accepted⟩ := authfileLoad_yields old
      (loadLoop_lines few rfl rfl (show _ = 0 + (contents ls newline).length + 0 by omega)
        (.inr enough) List.Forall₂.nil)
    refine ⟨ret, auth, ran, fun ok => ?_⟩
    simp only [accepted ok, List.nil_append, Except.ok.injEq, check_kept_iff, Complete, enough,
      true_and]
  · obtain ⟨none, one⟩ := not_or.mp enough
    obtain ⟨l, rfl⟩ := List.length_eq_one_iff.mp (not_not.mp one)
    have file : contents [l] newline = l.text := by simp [contents, none]
    rw [file]
    obtain ⟨-, ran⟩ | ⟨some, yields⟩ := loadLoop_single l
    · exact ⟨.malformed, old, by rw [authfileLoad, ran]; rfl, nofun⟩
    obtain ⟨ret, auth, ran, accepted⟩ := authfileLoad_yields old yields
    refine ⟨ret, auth, ran, fun ok => iff_of_false (fun all => ?_) fun complete =>
      enough complete.1⟩
    have here := all ⟨l.user, l.user_string⟩ ⟨l.pass, l.pass_string⟩
    rw [accepted ok, Except.ok.injEq, decide_eq_decide] at here
    have same := here.mpr ⟨l, List.mem_singleton_self l, rfl, rfl⟩
    have shorter : l.pass.length = l.pass.dropLast.length :=
      congrArg List.length (Prod.mk.inj (List.mem_singleton.mp same)).2
    have pos := List.length_pos_iff.mpr some
    rw [List.length_dropLast] at shorter
    omega

/-- The line `a:b`. -/
def lineAB : Line := ⟨[97], [98], false, by simp, by simp, by decide⟩

/-- The line `c:d`, with a carriage return if it has a line end. -/
def lineCD : Line := ⟨[99], [100], true, by simp, by simp, by decide⟩

theorem authfile_check_two : [lineAB, lineCD].length ≤ maxEntries ∧ ∃ auth,
    authfileLoad ⟨⟨0, fun _ => 0⟩, []⟩ (.readable (contents [lineAB, lineCD] false)) =
      .ok (.ok, auth) ∧
    ∀ user pass : CString, authfileCheck auth user pass =
      .ok (decide (∃ l ∈ [lineAB, lineCD], l.user = user.val ∧ l.pass = pass.val)) := by
  have few : [lineAB, lineCD].length ≤ maxEntries := by decide
  obtain ⟨ret, auth, ran, accepted⟩ :=
    authfile_check_iff [lineAB, lineCD] false few ⟨⟨0, fun _ => 0⟩, []⟩
  obtain ⟨auth', loaded⟩ : ∃ auth', authfileLoad ⟨⟨0, fun _ => 0⟩, []⟩
      (.readable (contents [lineAB, lineCD] false)) = .ok (.ok, auth') := ⟨_, rfl⟩
  obtain ⟨rfl, rfl⟩ := Prod.mk.inj (Except.ok.inj (ran.symm.trans loaded))
  exact ⟨few, auth, ran, (accepted rfl).mpr ⟨.inr (by decide), fun l mem => ⟨l, mem, rfl⟩⟩⟩

/-- The file `a:b`: the password is empty and not `b`. -/
theorem authfile_loses_last : ∃ auth,
    authfileLoad ⟨⟨0, fun _ => 0⟩, []⟩ (.readable (contents [lineAB] false)) = .ok (.ok, auth) ∧
    authfileCheck auth ⟨[97], by decide⟩ ⟨[98], by decide⟩ = .ok false ∧
    authfileCheck auth ⟨[97], by decide⟩ ⟨[], by decide⟩ = .ok true :=
  ⟨_, rfl, rfl, rfl⟩

end Kvsev.Server.Authfile
