import Kvsev.Connection.Line

/-!
# Sending the responses of a TCP connection

A connection keeps its responses in a list, from `resp_head` to `resp`. A response is a
few pieces of memory; one of them may stand for a large item, whose value lies in a chain
of chunks. `_transmit_pre` collects pieces for `sendmsg`, and `_transmit_post` takes what
was sent off the list: it finishes responses and moves the pieces of the first response
that is left.
-/

namespace Kvsev.Connection

open Server

def mcRespIovcount : Nat := 4

def iovMax : Nat := 1024

/-! ## Responses -/

/-- A piece that stands for the value of a large item. Of the bytes in its chunks the
first `total` are to be sent, and the last `len` of these are left. -/
structure ChunkedIov where
  chunks : List (List UInt8)
  total : Nat
  len : Nat
  len_le : len ≤ total
  total_le : total ≤ chunks.flatten.length
  deriving DecidableEq

/-- A piece of a response, from `iov_base` on. -/
inductive Iov where
  | plain (base : List UInt8)
  | chunked (item : ChunkedIov)
  deriving DecidableEq

namespace Iov

/-- `iov_len` -/
def len : Iov → Nat
  | plain base => base.length
  | chunked item => item.len

/-- The bytes that are left of a piece. -/
def bytes : Iov → List UInt8
  | plain base => base
  | chunked item => (item.chunks.flatten.drop (item.total - item.len)).take item.len

def isChunked : Iov → Bool
  | plain _ => false
  | chunked _ => true

/-- Some bytes of a piece were sent. For a large item only the length changes. -/
def advance (n : Nat) : Iov → Iov
  | plain base => plain (base.drop n)
  | chunked item =>
    chunked
      ⟨item.chunks, item.total, item.len - n, Nat.le_trans (Nat.sub_le ..) item.len_le,
        item.total_le⟩

theorem length_bytes (x : Iov) : x.bytes.length = x.len := by
  cases x with
  | plain base => rfl
  | chunked item =>
    have first := item.len_le
    have second := item.total_le
    simp only [bytes, len, List.length_take, List.length_drop]
    omega

theorem bytes_advance (n : Nat) (x : Iov) : (x.advance n).bytes = x.bytes.drop n := by
  cases x with
  | plain base => rfl
  | chunked item =>
    have first := item.len_le
    have second := item.total_le
    simp only [advance, bytes, List.drop_take, List.drop_drop]
    by_cases short : n ≤ item.len
    · congr 2
      omega
    · have none : item.len - n = 0 := by omega
      rw [none, List.take_zero, List.take_zero]

end Iov

/-- The loop of `_transmit_post` over the pieces of a response. -/
def advanceIovs : Nat → List Iov → List Iov
  | _, [] => []
  | res, x :: xs =>
    if x.len ≤ res then x.advance x.len :: advanceIovs (res - x.len) xs
    else x.advance res :: xs

theorem length_advanceIovs (res : Nat) (iov : List Iov) :
    (advanceIovs res iov).length = iov.length := by
  induction iov generalizing res with
  | nil => rfl
  | cons x xs ih =>
    simp only [advanceIovs]
    split
    · rw [List.length_cons, List.length_cons, ih]
    · rfl

theorem bytes_advanceIovs (res : Nat) (iov : List Iov) :
    (advanceIovs res iov).flatMap Iov.bytes = (iov.flatMap Iov.bytes).drop res := by
  induction iov generalizing res with
  | nil => simp [advanceIovs]
  | cons x xs ih =>
    simp only [advanceIovs, List.flatMap_cons, List.drop_append, x.length_bytes]
    split
    · rename_i all
      have gone : (x.advance x.len).bytes = [] := by
        rw [x.bytes_advance, ← x.length_bytes, List.drop_length]
      rw [List.flatMap_cons, gone, ih, List.drop_of_length_le (x.length_bytes.le.trans all)]
    · rename_i part
      rw [List.flatMap_cons, x.bytes_advance, Nat.sub_eq_zero_of_le (Nat.le_of_not_le part),
        List.drop_zero]

theorem length_flatMap_bytes (iov : List Iov) :
    (iov.flatMap Iov.bytes).length = (iov.map Iov.len).sum := by
  induction iov with
  | nil => rfl
  | cons x xs ih =>
    rw [List.flatMap_cons, List.length_append, ih, x.length_bytes, List.map_cons, List.sum_cons]

theorem head_advanceIovs {res : Nat} {iov : List Iov} (first : ¬ iov.head?.any Iov.isChunked) :
    ¬ (advanceIovs res iov).head?.any Iov.isChunked := by
  cases iov with
  | nil => exact first
  | cons x xs =>
    cases x with
    | plain base =>
      simp only [advanceIovs]
      split <;> simp [Iov.advance, Iov.isChunked]
    | chunked item => exact absurd rfl first

/-- A response object. The value of a large item is never its first piece, and `tosend`
counts what is left. It holds a reference to the item it shows. -/
structure Resp where
  iov : List Iov
  tosend : Nat
  skip : Bool
  item : Option ItemPtr
  few : iov.length ≤ mcRespIovcount
  first : ¬ iov.head?.any Iov.isChunked
  counted : tosend = (iov.map Iov.len).sum
  deriving DecidableEq

namespace Resp

/-- What is left of the bytes of a response. -/
def bytes (r : Resp) : List UInt8 := r.iov.flatMap Iov.bytes

theorem length_bytes (r : Resp) : r.bytes.length = r.tosend := by
  rw [bytes, length_flatMap_bytes, r.counted]

/-- Some bytes of a response were sent. -/
def advance (res : Nat) (r : Resp) : Resp where
  iov := advanceIovs res r.iov
  tosend := r.tosend - res
  skip := r.skip
  item := r.item
  few := by
    rw [length_advanceIovs]
    exact r.few
  first := head_advanceIovs r.first
  counted := by
    rw [← length_flatMap_bytes, bytes_advanceIovs, List.length_drop, length_flatMap_bytes,
      r.counted]

theorem bytes_advance (res : Nat) (r : Resp) : (r.advance res).bytes = r.bytes.drop res :=
  bytes_advanceIovs res r.iov

/-- `chunked_data_iov` is set. -/
def isChunked (r : Resp) : Bool := r.iov.any Iov.isChunked

end Resp

/-- The bytes that a list of responses still has to send. -/
def unsent (resps : List Resp) : List UInt8 :=
  resps.flatMap fun r => if r.skip then [] else r.bytes

theorem unsent_cons (r : Resp) (rs : List Resp) :
    unsent (r :: rs) = (if r.skip then [] else r.bytes) ++ unsent rs := List.flatMap_cons

theorem unsent_append (rs rs' : List Resp) : unsent (rs ++ rs') = unsent rs ++ unsent rs' :=
  List.flatMap_append

/-! ## Collecting and taking off -/

/-- The loop of `_transmit_pre` over the chunks of a large item: with the number of pieces
so far, the bytes to pass over, and those to send. -/
def chunkPieces : Nat → Nat → Nat → List (List UInt8) → List (List UInt8)
  | _, _, _, [] => []
  | iovused, done, todo, ch :: chs =>
    if todo = 0 ∨ iovMax - 1 ≤ iovused then []
    else if ch = [] then chunkPieces iovused done todo chs
    else if ch.length ≤ done then chunkPieces iovused (done - ch.length) todo chs
    else (ch.drop done).take todo :: chunkPieces (iovused + 1) 0 (todo - (ch.length - done)) chs

/-- What is collected for a piece of such a response. -/
def Iov.pieces (iovused : Nat) : Iov → List (List UInt8)
  | plain base => [base]
  | chunked item => chunkPieces iovused (item.total - item.len) item.len item.chunks

/-- The loop over the pieces of a response with a large item. -/
def iovPieces : Nat → List Iov → List (List UInt8)
  | _, [] => []
  | iovused, x :: xs =>
    let pieces := x.pieces iovused
    pieces ++
      if iovMax - 1 ≤ iovused + pieces.length then [] else iovPieces (iovused + pieces.length) xs

/-- What a response adds to the pieces. -/
def respPieces (iovused : Nat) (r : Resp) : List (List UInt8) :=
  if r.isChunked then iovPieces iovused r.iov else r.iov.map Iov.bytes

/-- `_transmit_pre` -/
def transmitPre : Nat → List Resp → List (List UInt8)
  | _, [] => []
  | iovused, r :: rs =>
    if iovMax - 1 ≤ iovused + r.iov.length then []
    else if r.skip then transmitPre iovused rs
    else
      let pieces := respPieces iovused r
      pieces ++ transmitPre (iovused + pieces.length) rs

/-- `_transmit_post` -/
def transmitPost : Nat → List Resp → List Resp
  | _, [] => []
  | res, r :: rs =>
    if r.skip then transmitPost res rs
    else if r.tosend ≤ res then transmitPost (res - r.tosend) rs
    else if (r.advance res).tosend = 0 then transmitPost 0 rs
    else r.advance res :: rs

/-- `enum transmit_result`, without hard errors. -/
inductive TransmitResult where
  | complete
  | incomplete
  | softError
  deriving DecidableEq, Repr

/-- The responses of a connection, and what was handed to its socket. -/
structure Output where
  resps : List Resp
  sent : List UInt8

/-- `transmit`, with the number of bytes the socket has room for. It has none when
`sendmsg` says `EAGAIN`. -/
def transmit (c : Output) (room : Option Nat) : Output × TransmitResult :=
  let pieces := transmitPre 0 c.resps
  if pieces = [] then ({ c with resps := transmitPost 0 c.resps }, .complete)
  else
    match room with
    | none => (c, .softError)
    | some k =>
      let res := min k pieces.flatten.length
      let resps := transmitPost res c.resps
      (⟨resps, c.sent ++ pieces.flatten.take res⟩,
        if resps = [] then .complete else .incomplete)

variable {c : Output}

theorem transmit_of_eq_nil (none : transmitPre 0 c.resps = []) (room : Option Nat) :
    transmit c room = ({ c with resps := transmitPost 0 c.resps }, .complete) := if_pos none

theorem transmit_none (some_ : transmitPre 0 c.resps ≠ []) :
    transmit c none = (c, .softError) := if_neg some_

theorem transmit_some (some_ : transmitPre 0 c.resps ≠ []) (k : Nat) :
    let pieces := transmitPre 0 c.resps
    let res := min k pieces.flatten.length
    let resps := transmitPost res c.resps
    transmit c (some k) = (⟨resps, c.sent ++ pieces.flatten.take res⟩,
      if resps = [] then .complete else .incomplete) := if_neg some_

/-- Several calls of `transmit`. -/
def transmits (c : Output) (rooms : List (Option Nat)) : Output :=
  rooms.foldl (fun c room => (transmit c room).1) c

/-! ## The pieces are the first bytes to be sent -/

/-- Pieces hold some bytes, or the first of them if there was no room for more. -/
def Gathers (iovused : Nat) (pieces : List (List UInt8)) (bytes : List UInt8) : Prop :=
  pieces.flatten = bytes ∨ iovMax - 1 ≤ iovused + pieces.length ∧ pieces.flatten <+: bytes

variable {iovused : Nat}

theorem Gathers.append {pieces more : List (List UInt8)} {xs ys : List UInt8}
    (first : Gathers iovused pieces xs) (full : iovMax - 1 ≤ iovused + pieces.length → more = [])
    (second : ¬ iovMax - 1 ≤ iovused + pieces.length → Gathers (iovused + pieces.length) more ys) :
    Gathers iovused (pieces ++ more) (xs ++ ys) := by
  by_cases room : iovMax - 1 ≤ iovused + pieces.length
  · rw [full room, List.append_nil]
    obtain all | ⟨-, part⟩ := first
    · exact .inr ⟨room, all ▸ List.prefix_append _ _⟩
    · exact .inr ⟨room, part.trans (List.prefix_append _ _)⟩
  obtain all | ⟨over_, -⟩ := first
  · obtain rest | ⟨over_, part⟩ := second room
    · exact .inl (by rw [List.flatten_append, all, rest])
    · refine .inr ⟨by rw [List.length_append, ← Nat.add_assoc]; exact over_, ?_⟩
      rw [List.flatten_append, all]
      exact (List.prefix_append_right_inj xs).mpr part
  · exact absurd over_ room

theorem gathers_chunkPieces (iovused done todo : Nat) (chunks : List (List UInt8))
    (enough : done + todo ≤ chunks.flatten.length) :
    Gathers iovused (chunkPieces iovused done todo chunks)
      ((chunks.flatten.drop done).take todo) := by
  induction chunks generalizing iovused done todo with
  | nil => exact .inl (by simp [chunkPieces])
  | cons ch chs ih =>
    rw [List.flatten_cons, List.length_append] at enough
    simp only [chunkPieces, List.flatten_cons]
    split
    · rename_i stop
      obtain rfl | full := stop
      · exact .inl (by simp)
      · exact .inr ⟨full, List.nil_prefix⟩
    split
    · rename_i empty
      rw [empty, List.nil_append]
      rw [empty, List.length_nil, Nat.zero_add] at enough
      exact ih iovused done todo enough
    split
    · rename_i passed
      rw [List.drop_append, List.drop_of_length_le passed, List.nil_append]
      exact ih iovused (done - ch.length) todo (by omega)
    rename_i inside
    have inside : done ≤ ch.length := Nat.le_of_not_le inside
    rw [List.drop_append_of_le_length inside, List.take_append, List.length_drop]
    have rest := ih (iovused + 1) 0 (todo - (ch.length - done)) (by omega)
    rw [List.drop_zero] at rest
    obtain all | ⟨full, part⟩ := rest
    · exact .inl (by rw [List.flatten_cons, all])
    · refine .inr ⟨by rw [List.length_cons]; omega, ?_⟩
      rw [List.flatten_cons]
      exact (List.prefix_append_right_inj _).mpr part

theorem gathers_iovPieces (iovused : Nat) (iov : List Iov) :
    Gathers iovused (iovPieces iovused iov) (iov.flatMap Iov.bytes) := by
  induction iov generalizing iovused with
  | nil => exact .inl rfl
  | cons x xs ih =>
    rw [iovPieces, List.flatMap_cons]
    refine Gathers.append ?_ (fun full => if_pos full) fun room => ?_
    · cases x with
      | plain base => exact .inl (List.flatten_singleton)
      | chunked item =>
        have first := item.len_le
        have second := item.total_le
        exact gathers_chunkPieces iovused _ _ _ (by omega)
    · rw [if_neg room]
      exact ih _

theorem gathers_respPieces (iovused : Nat) (r : Resp) :
    Gathers iovused (respPieces iovused r) r.bytes := by
  rw [respPieces]
  split
  · exact gathers_iovPieces iovused r.iov
  · exact .inl List.flatMap_def.symm

theorem transmitPre_head (iovused : Nat) (resps : List Resp) :
    (transmitPre iovused resps).flatten <+: unsent resps := by
  induction resps generalizing iovused with
  | nil => exact List.prefix_refl _
  | cons r rs ih =>
    rw [transmitPre, unsent_cons]
    split
    · exact List.nil_prefix
    split
    · exact ih iovused
    rw [List.flatten_append]
    obtain all | ⟨full, part⟩ := gathers_respPieces iovused r
    · rw [all]
      exact (List.prefix_append_right_inj _).mpr (ih _)
    -- The array is full, so nothing of the later responses was collected.
    have nothing : transmitPre (iovused + (respPieces iovused r).length) rs = [] := by
      cases rs with
      | nil => rfl
      | cons s rs =>
        rw [transmitPre]
        exact if_pos (Nat.le_add_right_of_le full)
    rw [nothing, List.flatten_nil, List.append_nil]
    exact part.trans (List.prefix_append _ _)

theorem respPieces_eq_nil {r : Resp} (none : respPieces iovused r = []) : r.tosend = 0 := by
  have empty : r.iov = [] := by
    rw [respPieces] at none
    split at none
    · have first := r.first
      cases eq : r.iov with
      | nil => rfl
      | cons x xs =>
        cases x with
        | plain base =>
          rw [eq, iovPieces] at none
          cases none
        | chunked item =>
          rw [eq] at first
          exact absurd rfl first
    · exact List.map_eq_nil_iff.mp none
  rw [r.counted, empty]
  rfl

/-- Nothing was collected only if there is nothing to send, and then all responses are
finished. -/
theorem transmitPost_of_pre_eq_nil {resps : List Resp} (none : transmitPre 0 resps = []) :
    transmitPost 0 resps = [] := by
  induction resps with
  | nil => rfl
  | cons r rs ih =>
    have few := r.few
    have room : ¬ iovMax - 1 ≤ 0 + r.iov.length := by
      simp only [mcRespIovcount, iovMax] at few ⊢
      omega
    rw [transmitPre, if_neg room] at none
    rw [transmitPost]
    split at none
    · rename_i skipped
      rw [if_pos skipped]
      exact ih none
    rename_i kept
    obtain ⟨here, later⟩ := List.append_eq_nil_iff.mp none
    rw [here] at later
    have over_ : r.tosend ≤ 0 := (respPieces_eq_nil here).le
    rw [if_neg kept, if_pos over_, Nat.zero_sub]
    exact ih later

/-! ## What was sent and what is left -/

/-- After some bytes were sent, `after` is left of the responses: the first ones are
finished, with all their bytes sent, and of the next one the bytes sent are missing. -/
inductive Progress (before : List Resp) : List UInt8 → List Resp → Prop
  | between {finished after : List Resp} (split : before = finished ++ after) :
      Progress before (unsent finished) after
  | within {finished rs : List Resp} {r r' : Resp} {k : Nat}
      (split : before = finished ++ r :: rs) (kept : r.skip = false) (kept' : r'.skip = false)
      (held : r'.item = r.item) (part : k < r.bytes.length) (left : r'.bytes = r.bytes.drop k) :
      Progress before (unsent finished ++ r.bytes.take k) (r' :: rs)

namespace Progress

variable {before after later : List Resp} {sent more : List UInt8}

theorem start (resps : List Resp) : Progress resps [] resps :=
  between (List.nil_append resps).symm

/-- What was sent of a response and what is left of it make up the whole. -/
theorem rejoin {r r' : Resp} {k : Nat} (kept : r.skip = false) (kept' : r'.skip = false)
    (left : r'.bytes = r.bytes.drop k) (rs : List Resp) :
    r.bytes.take k ++ unsent (r' :: rs) = unsent (r :: rs) := by
  rw [unsent_cons, unsent_cons, kept, kept', left, if_neg Bool.false_ne_true,
    if_neg Bool.false_ne_true, ← List.append_assoc, List.take_append_drop]

/-- No byte is sent twice, and none is lost. -/
theorem total (progress : Progress before sent after) : sent ++ unsent after = unsent before := by
  cases progress with
  | between split => rw [split, unsent_append]
  | within split kept kept' held part left =>
    rw [split, unsent_append, List.append_assoc, rejoin kept kept' left]

theorem head {r : Resp} {rs : List Resp} (progress : Progress rs sent after) :
    Progress (r :: rs) ((if r.skip then [] else r.bytes) ++ sent) after := by
  cases progress with
  | between split =>
    rw [← unsent_cons]
    exact between (by rw [split, List.cons_append])
  | within split kept kept' held part left =>
    rw [← List.append_assoc, ← unsent_cons]
    exact within (by rw [split, List.cons_append]) kept kept' held part left

theorem trans (first : Progress before sent after) (second : Progress after more later) :
    Progress before (sent ++ more) later := by
  cases first with
  | between split =>
    cases second with
    | between split' =>
      rw [← unsent_append]
      exact between (by rw [split, split', List.append_assoc])
    | within split' kept kept' held part left =>
      rw [← List.append_assoc, ← unsent_append]
      exact within (by rw [split, split', List.append_assoc]) kept kept' held part left
  | @within finished rs r r' k split kept kept' held part left =>
    -- The second part begins inside `r`, or finishes it first.
    cases second with
    | @between done _ split' =>
      cases done with
      | nil =>
        obtain rfl : r' :: rs = later := split'
        rw [show unsent [] = [] from rfl, List.append_nil]
        exact within split kept kept' held part left
      | cons s done =>
        obtain ⟨rfl, rest⟩ := List.cons.inj (split'.trans (List.cons_append ..))
        rw [List.append_assoc, rejoin kept kept' left, ← unsent_append]
        exact between (by rw [split, rest, List.append_assoc, List.cons_append])
    | @within done ss s s' j split' kept₂ kept₂' held' part' left' =>
      cases done with
      | nil =>
        obtain ⟨rfl, rfl⟩ := List.cons.inj split'
        have joined : r.bytes.take k ++ r'.bytes.take j = r.bytes.take (k + j) := by
          rw [left, List.take_add]
        rw [show unsent [] = [] from rfl, List.nil_append, List.append_assoc, joined]
        refine within split kept kept₂' (held'.trans held) ?_ ?_
        · rw [left, List.length_drop] at part'
          omega
        · rw [left', left, List.drop_drop]
      | cons t done =>
        obtain ⟨rfl, rest⟩ := List.cons.inj (split'.trans (List.cons_append ..))
        rw [← List.append_assoc, List.append_assoc (unsent finished), rejoin kept kept' left,
          ← unsent_append]
        exact within (by rw [split, rest, List.append_assoc, List.cons_append]) kept₂ kept₂'
          held' part' left'

end Progress

theorem progress_transmitPost (res : Nat) (resps : List Resp) :
    Progress resps ((unsent resps).take res) (transmitPost res resps) := by
  induction resps generalizing res with
  | nil =>
    rw [show unsent [] = [] from rfl, List.take_nil]
    exact Progress.start []
  | cons r rs ih =>
    rw [transmitPost, unsent_cons]
    split
    · rename_i skipped
      have later := (ih res).head (r := r)
      rwa [if_pos skipped, List.nil_append] at later
    rename_i kept
    have kept : r.skip = false := Bool.eq_false_iff.mpr kept
    rw [List.take_append, r.length_bytes]
    split
    · rename_i whole
      rw [List.take_of_length_le (by rw [r.length_bytes]; exact whole)]
      have later := (ih (res - r.tosend)).head (r := r)
      rwa [kept, if_neg Bool.false_ne_true] at later
    rename_i part
    have left : ¬ (r.advance res).tosend = 0 := by
      simp only [Resp.advance]
      omega
    rw [if_neg left, Nat.sub_eq_zero_of_le (Nat.le_of_not_le part), List.take_zero,
      List.append_nil]
    exact Progress.within (List.nil_append (r :: rs)).symm kept kept rfl
      (by rw [r.length_bytes]; omega) (r.bytes_advance res)

theorem progress_transmit (c : Output) (room : Option Nat) :
    ∃ more, (transmit c room).1.sent = c.sent ++ more ∧
      Progress c.resps more (transmit c room).1.resps := by
  by_cases none : transmitPre 0 c.resps = []
  · rw [transmit_of_eq_nil none]
    exact ⟨_, (List.append_nil _).symm, progress_transmitPost 0 c.resps⟩
  cases room with
  | none =>
    rw [transmit_none none]
    exact ⟨[], (List.append_nil _).symm, Progress.start c.resps⟩
  | some k =>
    rw [transmit_some none]
    refine ⟨_, rfl, ?_⟩
    have fits : min k (transmitPre 0 c.resps).flatten.length ≤
        (transmitPre 0 c.resps).flatten.length := Nat.min_le_right _ _
    obtain ⟨rest, whole⟩ := transmitPre_head 0 c.resps
    have taken : (transmitPre 0 c.resps).flatten.take
        (min k (transmitPre 0 c.resps).flatten.length) =
        (unsent c.resps).take (min k (transmitPre 0 c.resps).flatten.length) := by
      rw [← whole, List.take_append_of_le_length fits]
    rw [taken]
    exact progress_transmitPost _ c.resps

theorem progress_transmits {resps : List Resp} (rooms : List (Option Nat))
    (progress : Progress resps c.sent c.resps) :
    Progress resps (transmits c rooms).sent (transmits c rooms).resps := by
  induction rooms generalizing c with
  | nil => exact progress
  | cons room rooms ih =>
    obtain ⟨more, sent, next⟩ := progress_transmit c room
    apply ih
    rw [sent]
    exact progress.trans next

/-! ## Completion -/

theorem transmit_complete_iff (c : Output) (room : Option Nat) :
    (transmit c room).2 = .complete ↔ (transmit c room).1.resps = [] := by
  by_cases none : transmitPre 0 c.resps = []
  · rw [transmit_of_eq_nil none]
    exact iff_of_true rfl (transmitPost_of_pre_eq_nil none)
  cases room with
  | none =>
    rw [transmit_none none]
    refine iff_of_false (by simp) fun empty => none ?_
    rw [empty]
    rfl
  | some k =>
    rw [transmit_some none]
    simp only
    split
    · rename_i empty
      exact iff_of_true rfl empty
    · rename_i more
      exact iff_of_false (by simp) more

theorem transmit_softError {room : Option Nat}
    (soft : (transmit c room).2 = .softError) : room = none ∧ (transmit c room).1 = c := by
  by_cases none : transmitPre 0 c.resps = []
  · rw [transmit_of_eq_nil none] at soft
    cases soft
  cases room with
  | none => exact ⟨rfl, by rw [transmit_none none]⟩
  | some k =>
    rw [transmit_some none] at soft
    simp only at soft
    split at soft <;> cases soft

theorem transmit_incomplete {room : Option Nat} (incomplete : (transmit c room).2 = .incomplete) :
    room ≠ none ∧ c.resps ≠ [] ∧ (transmit c room).1.resps ≠ [] := by
  refine ⟨fun soft => ?_, fun empty => ?_, fun empty => ?_⟩
  · by_cases none : transmitPre 0 c.resps = []
    · rw [transmit_of_eq_nil none] at incomplete
      cases incomplete
    · rw [soft, transmit_none none] at incomplete
      cases incomplete
  · have none : transmitPre 0 c.resps = [] := by rw [empty]; rfl
    rw [transmit_of_eq_nil none] at incomplete
    cases incomplete
  · rw [(transmit_complete_iff c room).mpr empty] at incomplete
    cases incomplete

/-- The bytes and the responses that are left. -/
def Output.left (c : Output) : Nat := (unsent c.resps).length + c.resps.length

theorem Progress.length_le {before after : List Resp} {sent : List UInt8}
    (progress : Progress before sent after) : after.length ≤ before.length := by
  cases progress with
  | between split =>
    rw [split, List.length_append]
    exact Nat.le_add_left _ _
  | within split kept kept' held part left =>
    rw [split, List.length_append, List.length_cons, List.length_cons]
    exact Nat.le_add_left _ _

/-- The items of the finished responses and of those that are left. -/
theorem Progress.items {before after : List Resp} {sent : List UInt8}
    (progress : Progress before sent after) :
    (before.take (before.length - after.length)).filterMap Resp.item ++ after.filterMap Resp.item =
      before.filterMap Resp.item := by
  cases progress with
  | between split => simp [split]
  | within split kept kept' held part left => simp [split, List.filterMap_cons, held]

theorem left_transmit_le (c : Output) (room : Option Nat) : (transmit c room).1.left ≤ c.left := by
  obtain ⟨more, -, progress⟩ := progress_transmit c room
  have bytes := congrArg List.length progress.total
  have resps := progress.length_le
  rw [List.length_append] at bytes
  simp only [Output.left]
  omega

theorem flatten_chunkPieces_ne_nil {done todo : Nat} {chunks : List (List UInt8)}
    (room : iovused < iovMax - 1) (more : 0 < todo) (enough : done + todo ≤ chunks.flatten.length) :
    (chunkPieces iovused done todo chunks).flatten ≠ [] := by
  induction chunks generalizing done with
  | nil =>
    rw [List.flatten_nil, List.length_nil] at enough
    omega
  | cons ch chs ih =>
    rw [List.flatten_cons, List.length_append] at enough
    rw [chunkPieces, if_neg (by omega)]
    split
    · rename_i empty
      rw [empty, List.length_nil, Nat.zero_add] at enough
      exact ih enough
    split
    · exact ih (by omega)
    rename_i inside
    intro none
    rw [List.flatten_cons] at none
    have short := congrArg List.length (List.append_eq_nil_iff.mp none).1
    rw [List.length_take, List.length_drop, List.length_nil] at short
    omega

theorem flatten_iovPieces_ne_nil {iov : List Iov}
    (room : iovused + iov.length < iovMax - 1) (more : iov.flatMap Iov.bytes ≠ []) :
    (iovPieces iovused iov).flatten ≠ [] := by
  induction iov generalizing iovused with
  | nil => exact absurd rfl more
  | cons x xs ih =>
    rw [List.length_cons] at room
    rw [iovPieces, List.flatten_append]
    intro none
    obtain ⟨here, later⟩ := List.append_eq_nil_iff.mp none
    -- The piece itself is empty, so there was room for the others.
    have empty : x.bytes = [] ∧ (x.pieces iovused).length ≤ 1 := by
      cases x with
      | plain base => exact ⟨(List.append_nil base).symm.trans here, Nat.le_refl 1⟩
      | chunked item =>
        have first := item.len_le
        have second := item.total_le
        by_cases left : 0 < item.len
        · exact absurd here (flatten_chunkPieces_ne_nil (by omega) left (by omega))
        have zero : item.len = 0 := by omega
        have nothing : (Iov.chunked item).pieces iovused = [] := by
          simp only [Iov.pieces, zero]
          cases item.chunks with
          | nil => rfl
          | cons ch chs =>
            rw [chunkPieces]
            exact if_pos (.inl rfl)
        refine ⟨?_, by rw [nothing]; exact Nat.zero_le 1⟩
        rw [Iov.bytes, zero, List.take_zero]
    rw [List.flatMap_cons, empty.1, List.nil_append] at more
    rw [if_neg (by omega)] at later
    exact ih (by omega) more later

/-- If only empty pieces were collected, the first response is finished. -/
theorem transmitPost_of_flatten_pre_eq_nil {r : Resp} {rs : List Resp}
    (none : (transmitPre 0 (r :: rs)).flatten = []) :
    transmitPost 0 (r :: rs) = transmitPost 0 rs := by
  rw [transmitPost]
  split
  · rfl
  rename_i kept
  have few := r.few
  simp only [mcRespIovcount] at few
  have room : ¬ iovMax - 1 ≤ 0 + r.iov.length := by
    simp only [iovMax]
    omega
  rw [transmitPre, if_neg room, if_neg kept, List.flatten_append] at none
  have here := (List.append_eq_nil_iff.mp none).1
  have empty : r.bytes = [] := by
    rw [respPieces] at here
    split at here
    · by_contra more
      exact flatten_iovPieces_ne_nil (Nat.lt_of_not_le room) more here
    · rwa [Resp.bytes, List.flatMap_def]
  have zero : r.tosend = 0 := by rw [← r.length_bytes, empty, List.length_nil]
  rw [if_pos (by omega), zero]

/-- A call that finds room makes progress. -/
theorem left_transmit_lt {k : Nat} (room : 0 < k) (more : c.resps ≠ []) :
    (transmit c (some k)).1.left < c.left := by
  by_cases none : transmitPre 0 c.resps = []
  · have done := transmitPost_of_pre_eq_nil none
    have some_ := List.length_pos_iff.mpr more
    rw [transmit_of_eq_nil none]
    simp only [done, Output.left, unsent, List.flatMap_nil, List.length_nil]
    omega
  rw [transmit_some none]
  have progress := progress_transmitPost (min k (transmitPre 0 c.resps).flatten.length) c.resps
  have bytes := congrArg List.length progress.total
  have resps := progress.length_le
  have short := (transmitPre_head 0 c.resps).length_le
  rw [List.length_append, List.length_take] at bytes
  simp only [Output.left]
  by_cases empty : (transmitPre 0 c.resps).flatten.length = 0
  · obtain ⟨r, rs, eq⟩ := List.exists_cons_of_ne_nil more
    have fewer : (transmitPost 0 c.resps).length ≤ rs.length := by
      have none := List.length_eq_zero_iff.mp empty
      rw [eq] at none ⊢
      rw [transmitPost_of_flatten_pre_eq_nil none]
      exact (progress_transmitPost 0 rs).length_le
    rw [empty, Nat.min_zero] at bytes resps ⊢
    have total : c.resps.length = rs.length + 1 := congrArg List.length eq
    omega
  · omega

/-- Whether a call finds room in the socket. -/
def finds : Option Nat → Bool
  | none => false
  | some k => decide (0 < k)

theorem transmits_done {rooms : List (Option Nat)}
    (enough : c.left ≤ rooms.countP finds) : (transmits c rooms).resps = [] := by
  induction rooms generalizing c with
  | nil =>
    rw [List.countP_nil] at enough
    have none : c.resps.length = 0 := by
      simp only [Output.left] at enough
      omega
    exact List.length_eq_zero_iff.mp none
  | cons room rooms ih =>
    refine ih (c := (transmit c room).1) ?_
    rw [List.countP_cons] at enough
    by_cases done : c.resps = []
    · have stays := left_transmit_le c room
      simp only [Output.left, done, unsent, List.flatMap_nil, List.length_nil] at stays ⊢
      omega
    cases room with
    | none =>
      have stays := left_transmit_le c none
      simp only [finds] at enough
      exact stays.trans enough
    | some k =>
      by_cases room : 0 < k
      · have falls := left_transmit_lt room done
        simp only [finds, room, decide_true, if_true] at enough
        omega
      · have stays := left_transmit_le c (some k)
        simp only [finds, room, decide_false] at enough
        exact stays.trans enough

/-- For every list of responses and whatever room the calls of `transmit` find: what was
sent are the first bytes of the responses that are not skipped, a response leaves the
list once all its bytes were sent, and `transmit` reports completion when all is sent,
which happens after enough calls. -/
theorem transmits_exact (resps : List Resp) (rooms : List (Option Nat)) :
    let c := transmits ⟨resps, []⟩ rooms
    Progress resps c.sent c.resps ∧ c.sent ++ unsent c.resps = unsent resps ∧
      (∀ room, (transmit c room).2 = .complete →
        (transmit c room).1.sent = unsent resps ∧ (transmit c room).1.resps = []) ∧
      ((unsent resps).length + resps.length ≤ rooms.countP finds →
        c.sent = unsent resps ∧ c.resps = []) := by
  intro c
  have progress : Progress resps c.sent c.resps :=
    progress_transmits (c := ⟨resps, []⟩) rooms (Progress.start resps)
  have whole {d : Output} (upto : Progress resps d.sent d.resps) (done : d.resps = []) :
      d.sent = unsent resps := by
    rw [← upto.total, done, show unsent [] = [] from rfl, List.append_nil]
  refine ⟨progress, progress.total, fun room complete => ?_, fun enough => ?_⟩
  · have done := (transmit_complete_iff c room).mp complete
    obtain ⟨more, sent, next⟩ := progress_transmit c room
    have upto := progress.trans next
    rw [← sent] at upto
    exact ⟨whole upto done, done⟩
  · have done : c.resps = [] := transmits_done (c := ⟨resps, []⟩) enough
    exact ⟨whole progress done, done⟩

/-- A value of two chunks after its line. -/
def twoChunks : Resp where
  iov := [.plain [1, 2], .chunked ⟨[[3, 4, 5], [6, 7]], 4, 4, by decide, by decide⟩]
  tosend := 6
  skip := false
  item := some 0
  few := by decide
  first := by decide
  counted := by decide

theorem transmits_exact_sample :
    (transmits ⟨[twoChunks], []⟩
      [some 3, none, some 1, some 2, some 1, some 1, some 1, some 1]).sent =
      [1, 2, 3, 4, 5, 6] :=
  ((transmits_exact [twoChunks]
    [some 3, none, some 1, some 2, some 1, some 1, some 1, some 1]).2.2.2 (by decide)).1

end Kvsev.Connection
