import Kvsev.Server.Storage

/-!
# Increment and decrement

`do_add_delta` parses the value as a number, and writes the new number over the
old one when it fits and nobody else holds the item; otherwise it links a new
item. Neither way touches the authentication fields: the first keeps those of
the old value, the second those that happened to be in the new memory.
-/

namespace Kvsev.Server

/-- `isspace` in the C locale. -/
def isSpace (c : UInt8) : Bool := c = 32 ∨ (9 ≤ c ∧ c ≤ 13)

def isDigit (c : UInt8) : Bool := 48 ≤ c ∧ c ≤ 57

/-- The number a run of digits denotes. -/
def digitsValue (digits : List UInt8) : Nat :=
  digits.foldl (fun acc d => acc * 10 + (d.toNat - 48)) 0

/-- What `strtol` and its relatives read in base ten: the sign, the digits and the rest. -/
def scanNumber (str : List UInt8) : Bool × List UInt8 × List UInt8 :=
  let body := str.dropWhile isSpace
  let (negative, digits) : Bool × List UInt8 :=
    match body with
    | 45 :: rest => (true, rest)
    | 43 :: rest => (false, rest)
    | _ => (false, body)
  (negative, digits.takeWhile isDigit, digits.dropWhile isDigit)

theorem not_isSpace_of_isDigit {d : UInt8} (digit : isDigit d = true) : isSpace d = false := by
  simp only [isDigit, decide_eq_true_eq, UInt8.le_iff_toNat_le] at digit
  simp only [isSpace, decide_eq_false_iff_not, UInt8.le_iff_toNat_le]
  change 48 ≤ d.toNat ∧ d.toNat ≤ 57 at digit
  change ¬(d = 32 ∨ 9 ≤ d.toNat ∧ d.toNat ≤ 13)
  rintro (rfl | between)
  · simp at digit
  · omega

theorem scanNumber_digits {digits rest : List UInt8} (some_ : digits ≠ [])
    (all : ∀ d ∈ digits, isDigit d = true) (stop : ∀ c ∈ rest.head?, isDigit c = false) :
    scanNumber (digits ++ rest) = (false, digits, rest) := by
  obtain ⟨d, ds, rfl⟩ := List.exists_cons_of_ne_nil some_
  have first := all d List.mem_cons_self
  have body : (d :: ds ++ rest).dropWhile isSpace = d :: ds ++ rest :=
    List.dropWhile_cons_of_neg (by simp [not_isSpace_of_isDigit first])
  have ends : rest.takeWhile isDigit = [] ∧ rest.dropWhile isDigit = rest := by
    cases rest with
    | nil => exact ⟨rfl, rfl⟩
    | cons c cs => simp [stop c rfl]
  rw [scanNumber, body]
  -- a digit is no sign
  split
  rename_i eq
  split at eq
  · rename_i same
    cases same
    cases first
  · rename_i same
    cases same
    cases first
  · cases eq
    rw [List.takeWhile_append_of_pos all, List.dropWhile_append_of_pos all, ends.1, ends.2,
      List.append_nil]

/-- Whether `strchr(str, '-')` finds a dash. A string without a zero byte is
searched on behind its end. -/
def hasDash (str : List UInt8) (dashBehind : Bool) : Bool :=
  if str.contains 0 then (str.takeWhile (· ≠ 0)).contains 45
  else str.contains 45 ∨ dashBehind

/-- `safe_strtoull`, with what `strtoull` does in base ten. -/
def safeStrtoull (str : List UInt8) (dashBehind : Bool) : Option Nat :=
  let (negative, digits, rest) := scanNumber str
  let value := digitsValue digits
  if digits = [] ∨ 2 ^ 64 ≤ value then none
  else
    let ull := if negative then u64 (2 ^ 64 - value) else value
    match rest with
    | [] => none
    | next :: _ =>
      if isSpace next ∨ next = 0 then
        if 2 ^ 63 ≤ ull ∧ hasDash str dashBehind then none else some ull
      else none

/-- `itoa_u64` -/
def itoaU64 (value : Nat) : List UInt8 :=
  (Nat.toDigits 10 value).map fun c => c.toNat.toUInt8

/-- `enum delta_result_type` -/
inductive DeltaResultType where
  | ok
  | nonNumeric
  | eom
  | itemNotFound
  | itemCasMismatch
  deriving DecidableEq, Repr

/-- An increment or decrement request. A `cas` of zero is not compared. -/
structure DeltaRequest where
  key : Key
  incr : Bool
  delta : Nat
  cas : Nat
  dashBehind : Bool
  alloc : ItemAlloc

/-- The new number. -/
def addTo (incr : Bool) (delta value : Nat) : Nat :=
  if incr then u64 (value + delta) else if value < delta then 0 else value - delta

/-- The text of the new number, or the reason why the item cannot be changed. -/
def deltaText (s : State) (req : DeltaRequest) (it : Item) :
    Except DeltaResultType (List UInt8) :=
  if it.nbytes ≤ 2 ∨ it.chunked then .error .nonNumeric
  else if req.cas ≠ 0 ∧ itemGetCas s it ≠ req.cas then .error .itemCasMismatch
  else match safeStrtoull it.data req.dashBehind with
    | none => .error .nonNumeric
    | some value => .ok (itoaU64 (addTo req.incr req.delta value))

/-- The value after a replacement in place: the number, padded with blanks. -/
def inPlaceData (it : Item) (text : List UInt8) : List UInt8 :=
  text ++ List.replicate (it.nbytes - text.length - 2) 32 ++ it.data.drop (it.nbytes - 2)

/-- Write the number over the old one. -/
def deltaInPlace (s : State) (p : ItemPtr) (text : List UInt8) : State :=
  let casId := if s.settings.useCas then u64 (s.casId + 1) else s.casId
  let s₁ := s.modify p fun it =>
    { itemSetCas s it casId with data := inPlaceData it text }
  doItemUpdate { s₁ with casId } p

/-- Link a new item for the number. -/
def deltaReplace (s : State) (p : ItemPtr) (text : List UInt8) (alloc : ItemAlloc) :
    DeltaResultType × Option (ItemPtr × List UInt8) × State :=
  let it := s.heap p
  match doItemAlloc s it.key it.flags it.exptime (text.length + 2) alloc with
  | (none, s) => (.eom, none, doItemRemove s p)
  | (some new, s) =>
    let s := s.modify new fun it => { it with data := text ++ [13, 10] }
    let s := doItemReplace s p new
    let s := s.modify p fun it => itemSetCas s it (itemGetCas s (s.heap new))
    (.ok, some (p, text), doItemRemove s new)

/-- `do_add_delta`, for a caller that wants the item. What it gets is the item that was found,
also if another one took its place. -/
def doAddDeltaItem (s : State) (req : DeltaRequest) :
    DeltaResultType × Option (ItemPtr × List UInt8) × State :=
  match doItemGet s req.key false with
  | (none, s) => (.itemNotFound, none, s)
  | (some p, s) =>
    let it := s.heap p
    match deltaText s req it with
    | .error r => (r, none, doItemRemove s p)
    | .ok text =>
      if text.length + 2 ≤ it.nbytes ∧ it.refcount = 2 then
        (.ok, some (p, text), deltaInPlace s p text)
      else if 1 < it.refcount then deltaReplace s p text req.alloc
      else (.itemNotFound, none, if it.refcount = 1 then doItemRemove s p else s)

/-- A caller that does not want the item gives it back. -/
def deltaRelease : DeltaResultType × Option (ItemPtr × List UInt8) × State → DeltaResultType × State
  | (r, some (p, _), s) => (r, doItemRemove s p)
  | (r, none, s) => (r, s)

/-- `do_add_delta` -/
def doAddDelta (s : State) (req : DeltaRequest) : DeltaResultType × State :=
  deltaRelease (doAddDeltaItem s req)

theorem doAddDelta_eq (s : State) (req : DeltaRequest) :
    doAddDelta s req =
      match doItemGet s req.key false with
      | (none, s) => (.itemNotFound, s)
      | (some p, s) =>
        match deltaText s req (s.heap p) with
        | .error r => (r, doItemRemove s p)
        | .ok text =>
          if text.length + 2 ≤ (s.heap p).nbytes ∧ (s.heap p).refcount = 2 then
            (.ok, doItemRemove (deltaInPlace s p text) p)
          else if 1 < (s.heap p).refcount then deltaRelease (deltaReplace s p text req.alloc)
          else (.itemNotFound, if (s.heap p).refcount = 1 then doItemRemove s p else s) := by
  rw [doAddDelta, doAddDeltaItem]
  rcases doItemGet s req.key false with ⟨_ | p, s⟩
  · rfl
  dsimp only
  rcases deltaText s req (s.heap p) with r | text
  · rfl
  simp only [apply_ite deltaRelease]
  rfl

/-! ## What happens, seen from the state before -/

/-- The item and the new text, if the request will change something. -/
def deltaTarget (s : State) (req : DeltaRequest) : Option (ItemPtr × List UInt8) :=
  match liveItem s req.key with
  | none => none
  | some p =>
    match deltaText s req (s.heap p) with
    | .error _ => none
    | .ok text => some (p, text)

/-- The new number fits and only the table refers to the item. -/
def deltaFits (s : State) (p : ItemPtr) (text : List UInt8) : Bool :=
  text.length + 2 ≤ (s.heap p).nbytes ∧ (s.heap p).refcount = 1

/-- Whether the request links a new item. -/
def deltaReplaces (s : State) (req : DeltaRequest) : Bool :=
  match deltaTarget s req with
  | none => false
  | some (p, text) =>
    deltaFits s p text = false ∧ 0 < (s.heap p).refcount ∧ req.alloc.isSome ∧
      itemSizeOk s.settings (s.heap p).key.length (s.heap p).flags (text.length + 2)

theorem deltaText_refcountIncr (s : State) (req : DeltaRequest) (p : ItemPtr) :
    deltaText (refcountIncr s p) req ((refcountIncr s p).heap p) =
      deltaText s req (s.heap p) := by
  rw [refcountIncr, State.modify_heap_self]
  rfl

/-- The test of `do_add_delta`, which already holds a reference. -/
theorem deltaFits_iff {s : State} {p : ItemPtr} {text : List UInt8} :
    deltaFits s p text = true ↔ text.length + 2 ≤ ((refcountIncr s p).heap p).nbytes ∧
      ((refcountIncr s p).heap p).refcount = 2 := by
  rw [deltaFits, decide_eq_true_iff, refcountIncr, State.modify_heap_self]
  simp [Item.nbytes]

/-- Without memory for a new item nothing is linked. -/
theorem deltaReplace_shrinks {s : State} {p : ItemPtr} {text : List UInt8} {alloc : ItemAlloc}
    (full : itemSizeOk s.settings (s.heap p).key.length (s.heap p).flags (text.length + 2) = true →
      alloc = none) :
    Shrinks Item.core s (deltaRelease (deltaReplace s p text alloc)).2 := by
  unfold deltaReplace
  dsimp only
  rcases ran : doItemAlloc s (s.heap p).key (s.heap p).flags (s.heap p).exptime (text.length + 2)
      alloc with ⟨_ | new, s'⟩
  · have grown := Shrinks.doItemAlloc s (s.heap p).key (s.heap p).flags (s.heap p).exptime
      (text.length + 2) alloc
    rw [ran] at grown
    exact grown.trans (Shrinks.doItemRemove s' p)
  · obtain ⟨ok, left, given, _⟩ := doItemAlloc_some ran
    cases given.symm.trans (full ok)

section

variable {α : Type} {view : Item → α} {s : State} {p : ItemPtr} {text : List UInt8}

theorem deltaInPlace_shrinks (coreView : CoreView view)
    (same : view { s.heap p with data := inPlaceData (s.heap p) text } = view (s.heap p)) :
    Shrinks view s (deltaInPlace s p text) := by
  simp only [deltaInPlace]
  refine .trans ?_ ((Shrinks.doItemUpdate _ p).of_core coreView)
  have written : ∀ casId, Shrinks view s (s.modify p fun it =>
      { itemSetCas s it casId with data := inPlaceData it text }) := by
    intro casId
    refine Shrinks.modifyAt (Eq.trans (coreView _ _ ?_) same) ?_ ?_
    all_goals
      simp only [itemSetCas]
      split <;> rfl
  exact { written _ with table := fun table => { (written _).table table with } }

theorem same_refcountIncr (coreView : CoreView view)
    (same : view { s.heap p with data := inPlaceData (s.heap p) text } = view (s.heap p)) :
    view { (refcountIncr s p).heap p with
      data := inPlaceData ((refcountIncr s p).heap p) text } =
        view ((refcountIncr s p).heap p) := by
  rw [refcountIncr, State.modify_heap_self]
  refine Eq.trans (coreView _ _ ?_) (same.trans (coreView _ _ ?_))
  · rfl
  · rfl

/-- A request that links no new item changes nothing but the bytes of a value
that it overwrites in place. -/
theorem doAddDelta_shrinks {req : DeltaRequest} (plain : deltaReplaces s req = false)
    (coreView : CoreView view)
    (same : ∀ p text, deltaTarget s req = some (p, text) → deltaFits s p text = true →
      view { s.heap p with data := inPlaceData (s.heap p) text } = view (s.heap p)) :
    Shrinks view s (doAddDelta s req).2 := by
  have get := (Shrinks.doItemGet s req.key false).of_core coreView
  have release : ∀ s' q, Shrinks view s' (doItemRemove s' q) := fun s' q =>
    (Shrinks.doItemRemove s' q).of_core coreView
  unfold deltaReplaces at plain
  unfold deltaTarget at plain same
  rw [doAddDelta_eq]
  cases live : liveItem s req.key with
  | none =>
    have missed : (doItemGet s req.key false).1 = none := by rw [doItemGet_fst, live]
    rcases ran : doItemGet s req.key false with ⟨found, s'⟩
    rw [ran] at missed get
    cases missed
    exact get
  | some p =>
    rw [live] at plain same
    rw [doItemGet_of_live live] at get ⊢
    dsimp only at plain same get ⊢
    rw [deltaText_refcountIncr]
    cases parsed : deltaText s req (s.heap p) with
    | error r => exact get.trans (release _ p)
    | ok text =>
      rw [parsed] at plain same
      dsimp only at plain same ⊢
      have held : (refcountIncr s p).heap p =
          { s.heap p with
            refcount := (s.heap p).refcount + 1
            peak := max (s.heap p).peak ((s.heap p).refcount + 1) } :=
        State.modify_heap_self s p _
      split
      · -- in place
        rename_i fits
        have room : deltaFits s p text = true := deltaFits_iff.mpr fits
        have written := deltaInPlace_shrinks coreView
          (same_refcountIncr coreView (same p text rfl room))
        exact (get.trans written).trans (release _ p)
      · rename_i unfit
        split
        · -- a new item, for which there is no memory
          rename_i many
          have noFit : deltaFits s p text = false :=
            Bool.eq_false_iff.mpr fun fits => unfit (deltaFits_iff.mp fits)
          have pos : 0 < (s.heap p).refcount := by
            simpa [held] using many
          refine get.trans ((deltaReplace_shrinks fun ok => ?_).of_core coreView)
          rw [held] at ok
          cases given : req.alloc with
          | none => rfl
          | some left =>
            have ok' : itemSizeOk s.settings (s.heap p).key.length (s.heap p).flags
                (text.length + 2) = true := ok
            simp [noFit, pos, given, ok'] at plain
        · split
          · exact get.trans (release _ p)
          · exact get

end

end Kvsev.Server
