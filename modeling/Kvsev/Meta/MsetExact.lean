import Kvsev.Meta.MsetReply

/-!
# What the answer of `ms` says

The answer to a stored `ms` repeats the flags in the order of the request. The opaque token is
the one of the line. The unique is the one of the uploaded item, so with `append` and `prepend`
it is the one that the request compared with and not that of the item in the table. The key is
the one of the line, unless it was base64 that `base64_encode` would write in another way.
-/

namespace Kvsev.Meta

open Function Memory Server Connection

variable {s s' s'' : State} {p q : ItemPtr} {comm : Nread}

/-! ## The uniques of stored items -/

/-- A step that leaves the keys and the uniques of all items. -/
structure Carries (s s' : State) : Prop where
  settings : s'.settings = s.settings
  casId : s'.casId = s.casId
  item : ∀ p, (s'.heap p).key = (s.heap p).key ∧ (s'.heap p).cas = (s.heap p).cas

namespace Carries

theorem refl (s : State) : Carries s s := ⟨rfl, rfl, fun _ => ⟨rfl, rfl⟩⟩

theorem trans (first : Carries s s') (second : Carries s' s'') : Carries s s'' :=
  ⟨second.settings.trans first.settings, second.casId.trans first.casId, fun p =>
    ⟨(second.item p).1.trans (first.item p).1, (second.item p).2.trans (first.item p).2⟩⟩

theorem modify (p : ItemPtr) {f : Item → Item} (key : (f (s.heap p)).key = (s.heap p).key)
    (cas : (f (s.heap p)).cas = (s.heap p).cas) : Carries s (s.modify p f) := by
  refine ⟨rfl, rfl, fun q => ?_⟩
  by_cases same : q = p
  · subst same
    rw [State.modify_heap_self]
    exact ⟨key, cas⟩
  · rw [State.modify_heap_of_ne _ same]
    exact ⟨rfl, rfl⟩

theorem doItemRemove (s : State) (p : ItemPtr) : Carries s (doItemRemove s p) := modify p rfl rfl

theorem refcountIncr (s : State) (p : ItemPtr) : Carries s (refcountIncr s p) := modify p rfl rfl

theorem doItemUnlink (s : State) (p : ItemPtr) : Carries s (doItemUnlink s p) := by
  rw [Server.doItemUnlink]
  split
  · have flagged : Carries s (s.modify p fun it => { it with linked := false }) := modify p rfl rfl
    have dropped : Carries s { s.modify p (fun it => { it with linked := false }) with
        assoc := update s.assoc (s.heap p).key none } :=
      ⟨flagged.settings, flagged.casId, flagged.item⟩
    exact dropped.trans (doItemRemove _ p)
  · exact refl s

theorem doItemGet (s : State) (key : Key) : Carries s (doItemGet s key false).2 := by
  rw [Server.doItemGet]
  cases s.assoc key with
  | none => exact refl s
  | some p =>
    dsimp only
    split
    · exact ((refcountIncr s p).trans (doItemUnlink _ p)).trans (doItemRemove _ p)
    · exact refcountIncr s p

theorem itemGetCas (carries : Carries s s') (p : ItemPtr) :
    itemGetCas s' (s'.heap p) = itemGetCas s (s.heap p) := by
  rw [Server.itemGetCas, Server.itemGetCas, carries.settings, (carries.item p).2]

theorem nextCas (carries : Carries s s') : nextCas s' = nextCas s := by
  rw [Server.nextCas, Server.nextCas, carries.settings, carries.casId]

end Carries

/-- The uploaded item `p` was stored: its key has an item with a new unique, and the uploaded one
shows the given unique. -/
structure StoredAs (s s' : State) (p : ItemPtr) (cas : Nat) : Prop where
  key : (s'.heap p).key = (s.heap p).key
  linked : ∃ q, s'.assoc (s.heap p).key = some q ∧ itemGetCas s' (s'.heap q) = nextCas s
  cas : itemGetCas s' (s'.heap p) = cas

theorem StoredAs.after {cas : Nat} (stored : StoredAs s s' p cas) (carries : Carries s' s'')
    (assoc : s''.assoc = s'.assoc) : StoredAs s s'' p cas := by
  obtain ⟨q, here, unique⟩ := stored.linked
  exact ⟨(carries.item p).1.trans stored.key,
    ⟨q, by rw [assoc, here], (carries.itemGetCas q).trans unique⟩,
    (carries.itemGetCas p).trans stored.cas⟩

theorem StoredAs.before {cas : Nat} (stored : StoredAs s' s'' p cas)
    (unique : nextCas s' = nextCas s) (key : (s'.heap p).key = (s.heap p).key) :
    StoredAs s s'' p cas := by
  obtain ⟨same, linked, shown⟩ := stored
  rw [key] at same linked
  rw [unique] at linked
  exact ⟨same, linked, shown⟩

theorem storedAs_doItemLink (s : State) (p : ItemPtr) :
    StoredAs s (doItemLink s p) p (nextCas s) := by
  have cas : itemGetCas (doItemLink s p) ((doItemLink s p).heap p) = nextCas s := by
    simp only [itemGetCas, nextCas, doItemLink, State.modify, update_self, itemSetCas]
    split <;> rfl
  have key : ((doItemLink s p).heap p).key = (s.heap p).key := by
    simp [doItemLink, State.modify]
  exact ⟨key, ⟨p, update_self .., cas⟩, cas⟩

theorem storedAs_doItemLink_other (ne : p ≠ q) (key : (s.heap q).key = (s.heap p).key) :
    StoredAs s (doItemLink s q) p (itemGetCas s (s.heap p)) := by
  have linked := (storedAs_doItemLink s q).linked
  rw [key] at linked
  have same := doItemLink_heap_of_ne s ne
  exact ⟨by rw [same], linked, by rw [same]; rfl⟩

theorem storedAs_storeOver (s : State) (p old : ItemPtr) :
    StoredAs s (storeOver s p old).2 p (nextCas s) := by
  have unlinked := Carries.doItemUnlink s old
  have linked := storedAs_doItemLink (doItemUnlink s old) p
  rw [unlinked.nextCas] at linked
  exact (linked.before unlinked.nextCas (unlinked.item p).1).after (.doItemRemove _ old) rfl

/-- A concatenation is another item, and the uploaded one stays as it is. -/
theorem storedAs_storeConcat {old : ItemPtr} {copy : CopyInput} (lt : p < s.next)
    (stored : (storeConcat s p old comm copy).1 = .stored) :
    StoredAs s (storeConcat s p old comm copy).2 p (itemGetCas s (s.heap p)) := by
  rw [storeConcat] at stored ⊢
  rcases ran : doItemAlloc s (s.heap p).key (s.heap old).flags (s.heap old).exptime
    ((s.heap p).nbytes + (s.heap old).nbytes - 2) copy.alloc with ⟨_ | new, s₁⟩
  · simp only [ran, reduceCtorEq] at stored
  simp only [ran] at stored ⊢
  rcases copied : copyData comm (s.heap old) (s.heap p) (s₁.heap new) copy with _ | data
  · simp only [copied, reduceCtorEq] at stored
  obtain ⟨-, left, -, rfl, made⟩ := doItemAlloc_made ran
  have ne : p ≠ s.next := Nat.ne_of_lt lt
  have unlinked := (Carries.modify s.next rfl rfl).trans
    (.doItemUnlink (s₁.modify s.next fun it => { it with data }) old)
  have key := (unlinked.item p).1
  have newKey := (unlinked.item s.next).1
  have cas := unlinked.itemGetCas p
  have unique := unlinked.nextCas
  subst made
  simp only [update_of_ne ne] at key cas
  simp only [update_self] at newKey
  have linked := storedAs_doItemLink_other ne (newKey.trans key.symm)
  rw [cas] at linked
  have stored := StoredAs.before (s := s) linked unique key
  exact (stored.after (.doItemRemove _ old) rfl).after (.doItemRemove _ s.next) rfl

theorem doStoreItem_storedAs {setStale : Bool} {copy : CopyInput} (lt : p < s.next)
    (stored : doStoreItem s p comm setStale copy = (.stored, s')) :
    StoredAs s s' p
      (if comm = .append ∨ comm = .prepend then itemGetCas s (s.heap p) else nextCas s) := by
  rw [doStoreItem] at stored
  have looked := Carries.doItemGet s (s.heap p).key
  have next : s.next ≤ (doItemGet s (s.heap p).key false).2.next :=
    (Shrinks.doItemGet s (s.heap p).key false).next
  rcases ran : doItemGet s (s.heap p).key false with ⟨_ | old, s₁⟩
  · rw [ran] at looked stored
    have linked := (storedAs_doItemLink s₁ p).before looked.nextCas (looked.item p).1
    rw [looked.nextCas] at linked
    cases comm <;> simp [storeAbsent] at stored
    all_goals
      obtain rfl := stored
      exact linked
  · rw [ran] at looked stored next
    have replaced : ∀ s₂, Carries s₁ s₂ → StoredAs s (storeOver s₂ p old).2 p (nextCas s) := by
      intro s₂ marked
      have carries := looked.trans marked
      have put := storedAs_storeOver s₂ p old
      rw [carries.nextCas] at put
      exact put.before carries.nextCas (carries.item p).1
    have joined : (storeConcat s₁ p old comm copy).1 = .stored →
        StoredAs s (storeConcat s₁ p old comm copy).2 p (itemGetCas s (s.heap p)) := by
      intro stored
      have made := storedAs_storeConcat (Nat.lt_of_lt_of_le lt next) stored
      rw [looked.itemGetCas] at made
      exact made.before looked.nextCas (looked.item p).1
    have pair {r : StoreItemType × State} (eq : r = (.stored, s')) : r.1 = .stored ∧ r.2 = s' :=
      ⟨by rw [eq], by rw [eq]⟩
    unfold storeExisting at stored
    cases comm with
    | add => cases stored
    | cas =>
      rw [if_neg (by decide)]
      dsimp only at stored
      split at stored
      · rw [← (pair stored).2]
        exact replaced s₁ (.refl s₁)
      · rw [← (pair stored).2]
        exact replaced _ (.modify p rfl rfl)
      · cases stored
      · cases stored
    | append | prepend =>
      rw [if_pos (by decide)]
      dsimp only at stored
      split at stored
      · rw [← (pair stored).2]
        exact joined (pair stored).1
      · rw [← (pair stored).2]
        exact joined (pair stored).1
      · cases stored
      · cases stored
    | replace | set =>
      rw [if_neg (by decide), ← (pair stored).2]
      exact replaced s₁ (.refl s₁)

/-- The steps that follow do not concern uniques. -/
theorem storeNread_storedAs {setStale : Bool} {done : Completion} (lt : p < s.next)
    (stored : storeNread s p comm setStale done = .ok (some .stored, s')) :
    StoredAs s s' p
      (if comm = .append ∨ comm = .prepend then itemGetCas s (s.heap p) else nextCas s) := by
  rw [storeNread] at stored
  split at stored
  · rcases ran : doStoreItem s p comm setStale done.copy with ⟨ret, s₁⟩
    simp only [ran, macStep_eq, Exec.ok_bind] at stored
    obtain ⟨⟨r, s₂⟩, added, stored⟩ := Exec.bind_eq_ok.mp stored
    rw [treeStep] at added
    obtain ⟨⟨r', merkle⟩, -, added⟩ := Exec.bind_eq_ok.mp added
    cases added
    cases stored
    have maced : Carries s₁ (s₁.modify p fun it => { it with mac := itemMac it done.flat }) :=
      .modify p rfl rfl
    have tree : Carries s₁ { s₁.modify p (fun it => { it with mac := itemMac it done.flat }) with
        merkle } := ⟨maced.settings, maced.casId, maced.item⟩
    exact ((doStoreItem_storedAs lt ran).after tree rfl).after (.modify p rfl rfl) rfl
  · cases stored

/-! ## From the line to the answer -/

/-- The flags of a line of `ms`. -/
def msetOptions (sup : Supply) (s : State) (t : Tokens) : MetaFlags :=
  match metaFlagPreparse sup s.currentTime (msetFlags t) [] (preparseStart (t.word 1) {}) with
  | .ok p => p.flags
  | .error _ => {}

/-- What the connection keeps while the value is on its way. -/
structure Waiting where
  item : ItemPtr
  comm : Nread
  setStale : Bool
  keyBinary : Bool
  wbuf : Writer UInt8

/-- `process_mset_command` with the write buffer of the response. -/
def beginMset (sup : Supply) (fresh : Nat → UInt8) (s : State) (t : Tokens) :
    Exec (Option Waiting × State) :=
  match processMsetCommand sup s t with
  | (.upload (item, comm) _, s') => do
    let wbuf ← stash (t.words.drop 2) ⟨⟨writeBufferSize, fresh⟩, 0⟩
    let of := msetOptions sup s t
    return (some ⟨item, comm, of.setStale && comm = .cas, of.keyBinary, wbuf⟩, s')
  | (_, s') => return (none, s')

/-- The answer of `complete_nread_ascii` after `ms`. -/
def msetAnswer (metaResponseOld : Bool) (waiting : Waiting) (ret : Option StoreItemType)
    (s : State) : Exec (List UInt8) :=
  match ret with
  | none => return text (msetReply metaResponseOld none) ++ crlf
  | some ret =>
    let it := s.heap waiting.item
    finalizeMset metaResponseOld ret ⟨it.key, itemGetCas s it, waiting.keyBinary⟩ waiting.wbuf

/-- `complete_nread_ascii` after `ms`, with the value that has come. -/
def completeMset (metaResponseOld : Bool) (data : List UInt8) (done : Completion)
    (waiting : Waiting) (s : State) : Exec (List UInt8 × State) := do
  let (ret, s) ← storeNread (s.modify waiting.item fun it => { it with data }) waiting.item
    waiting.comm waiting.setStale done
  let reply ← msetAnswer metaResponseOld waiting ret s
  return (reply, doItemRemove s waiting.item)

/-! ## What it should say -/

/-- The words of the answer that a word of the line asks for, with the words for the key. -/
def flagWords (key : List (List UInt8)) (cas : Nat) (token : List UInt8) : List (List UInt8) :=
  if letter token = 79 then [token]
  else if letter token = 107 then key
  else if letter token = 99 then [99 :: itoaU64 cas]
  else []

/-- A key in base64 is followed by a mark. -/
def keyWords (bin : Bool) (key : List UInt8) : List (List UInt8) :=
  if bin then [107 :: key, [98]] else [107 :: key]

/-- The words for the key of the line, if there is now an item with the given unique. -/
def requestedWords (t : Tokens) (cas : Nat) : List UInt8 → List (List UInt8) :=
  flagWords (keyWords (flagOf 98 (msetFlags t)).isSome (t.word 1)) cas

/-- The answer that repeats the request and tells the unique. -/
def exactReply (metaResponseOld : Bool) (t : Tokens) (cas : Nat) : List UInt8 :=
  text (msetReply metaResponseOld (some .stored)) ++
    spaced ((msetFlags t).flatMap (requestedWords t cas)) ++ crlf

/-- The unique that the request compares with, or zero. -/
def requestedCas (t : Tokens) : Nat :=
  ((flagOf 67 (msetFlags t)).map fun token => (safeUnsigned token.tail).getD 0).getD 0

/-- A request that does not ask for what the uploaded item cannot tell. -/
structure Tells (s : State) (comm : Nread) (t : Tokens) : Prop where
  unique : (flagOf 99 (msetFlags t)).isSome = true → (comm = .append ∨ comm = .prepend) →
    s.settings.useCas = true → requestedCas t = u64 (s.casId + 1)
  key : (flagOf 107 (msetFlags t)).isSome = true → (flagOf 98 (msetFlags t)).isSome = true →
    ∃ raw, raw ≠ [] ∧ t.word 1 = base64Encode raw

variable {sup : Supply} {t : Tokens} {vlen : Nat} {it : Uploaded} {token : List UInt8}
variable {tokens words more : List (List UInt8)}

/-- Words without spaces can be told from their text. -/
theorem spaced_inj (left : ∀ word ∈ words, 32 ∉ word) (right : ∀ word ∈ more, 32 ∉ word) :
    spaced words = spaced more ↔ words = more := by
  refine ⟨fun same => ?_, fun same => by rw [same]⟩
  have first : ∀ {word : List UInt8} {words : List (List UInt8)}, 32 ∉ word →
      (word ++ spaced words).takeWhile (· ≠ 32) = word := by
    intro word words noSpace
    have inside : ∀ c ∈ word, decide (c ≠ 32) = true :=
      fun c mem => decide_eq_true fun here => noSpace (here ▸ mem)
    rw [List.takeWhile_append_of_pos inside]
    cases words <;> simp [spaced]
  induction words generalizing more with
  | nil =>
    cases more with
    | nil => rfl
    | cons word more => cases same
  | cons word words ih =>
    cases more with
    | nil => cases same
    | cons other more =>
      rw [spaced_cons, spaced_cons, List.cons.injEq] at same
      have eq := congrArg (List.takeWhile (· ≠ 32)) same.2
      rw [first (left word List.mem_cons_self), first (right other List.mem_cons_self)] at eq
      subst eq
      rw [ih (fun other mem => left other (List.mem_cons_of_mem _ mem))
        (fun other mem => right other (List.mem_cons_of_mem _ mem))
        (List.append_cancel_left same.2)]

theorem flatMap_eq_iff {f g : List UInt8 → List (List UInt8)}
    (length : ∀ token, (f token).length = (g token).length) :
    tokens.flatMap f = tokens.flatMap g ↔ ∀ token ∈ tokens, f token = g token := by
  induction tokens with
  | nil => simp
  | cons token tokens ih =>
    rw [List.flatMap_cons, List.flatMap_cons, List.forall_mem_cons, ← ih]
    constructor
    · exact fun same => List.append_inj same (length token)
    · rintro ⟨here, later⟩
      rw [here, later]

/-- The words that the answer has for a word of the line. -/
def givenWords (it : Uploaded) (token : List UInt8) : List (List UInt8) :=
  (stashBody token).toList.flatMap (answerWords it)

theorem flatMap_answerWords (it : Uploaded) (tokens : List (List UInt8)) :
    (tokens.filterMap stashBody).flatMap (answerWords it) = tokens.flatMap (givenWords it) := by
  induction tokens with
  | nil => rfl
  | cons token tokens ih =>
    rw [List.filterMap_cons, List.flatMap_cons, ← ih, givenWords]
    cases stashBody token with
    | none => rfl
    | some body => simp

theorem givenWords_eq (it : Uploaded) (token : List UInt8) : givenWords it token =
    flagWords (keyWords it.keyBinary (if it.keyBinary then base64Encode it.key else it.key))
      it.cas token := by
  rw [givenWords, stashBody, flagWords]
  split
  · rename_i here
    rw [eq_cons_of_letter (by decide) here]
    simp [answerWords]
  split
  · cases binary : it.keyBinary <;> simp [answerWords, keyWords, binary]
  split
  · simp [answerWords]
  · rfl

/-- There are no spaces in the words of the answer. -/
theorem flagWords_spaceless {key : List (List UInt8)} {cas : Nat}
    (line : ∀ token ∈ tokens, 32 ∉ token) (keys : ∀ word ∈ key, 32 ∉ word) :
    ∀ word ∈ tokens.flatMap (flagWords key cas), 32 ∉ word := by
  intro word mem
  obtain ⟨token, there, mem⟩ := List.mem_flatMap.mp mem
  unfold flagWords at mem
  split at mem
  · exact List.mem_singleton.mp mem ▸ line token there
  split at mem
  · exact keys word mem
  split at mem
  · rw [List.mem_singleton.mp mem, List.mem_cons]
    rintro (absurd | digit)
    · cases absurd
    · have := (Counter.isDecimal_itoaU64 cas).digit 32 digit
      cases this
  · cases mem

theorem keyWords_spaceless {bin : Bool} {key : List UInt8} (noSpace : 32 ∉ key) :
    ∀ word ∈ keyWords bin key, 32 ∉ word := by
  intro word mem
  have first : 32 ∉ 107 :: key := by simpa using noSpace
  cases bin with
  | false => exact List.mem_singleton.mp mem ▸ first
  | true =>
    simp only [keyWords, if_true, List.mem_cons, List.not_mem_nil, or_false] at mem
    rcases mem with rfl | rfl
    · exact first
    · decide

/-- What an `ms` that waits for its value has read. -/
structure Began (sup : Supply) (s : State) (t : Tokens) (p : ItemPtr) (comm : Nread)
    (s₁ : State) : Prop where
  short : (t.word 1).length ≤ keyMaxLength
  accepted : Accepted sup (t.word 1) [] (msetFlags t)
  bodies : (t.words.drop 2).filterMap stashBody = (msetFlags t).filterMap stashBody
  fits : ∀ token ∈ t.words.drop 2, opaqueTooLong token = false
  lt : p < s₁.next
  key : (s₁.heap p).key = lineKey sup (t.word 1) (msetFlags t)
  cas : itemGetCas s₁ (s₁.heap p) = if s.settings.useCas then requestedCas t else 0
  unique : nextCas s₁ = nextCas s

theorem began_of_upload {s₁ : State}
    (began : processMsetCommand sup s t = (.upload (p, comm) vlen, s₁)) :
    Began sup s t p comm s₁ := by
  rw [processMsetCommand] at began
  split at began
  · cases began
  split at began
  · cases began
  split at began
  · cases began
  split at began
  · cases began
  split at began
  · cases began
  rename_i many short more few _ l valid
  cases ran : metaFlagPreparse sup s.currentTime (t.words.drop 3) []
      ⟨{}, "CLIENT_ERROR bad command line format", t.word 1⟩ with
  | error errstr => simp [msetItem, ran] at began
  | ok q =>
    cases mode : msetMode q.flags with
    | none => simp [msetItem, ran, mode] at began
    | some comm' =>
      cases long : (t.words.drop 2).any opaqueTooLong with
      | true => simp [msetItem, ran, mode, long] at began
      | false =>
        rcases given : doItemAlloc s q.key q.flags.clientFlags q.flags.exptime (l + 2)
          (sup.alloc s t) with ⟨_ | item, s'⟩
        · simp [msetItem, ran, mode, long, given] at began
        simp only [msetItem, ran, mode, long, given, Bool.false_eq_true, if_false, Prod.mk.injEq,
          Begun.upload.injEq] at began
        obtain ⟨⟨⟨rfl, rfl⟩, rfl⟩, rfl⟩ := began
        obtain ⟨-, accepted, found⟩ := metaFlagPreparse_iff.mp ran
        have key : q.key = lineKey sup (t.word 1) (msetFlags t) := by
          rw [found]
          exact @linePreparse_key sup (t.word 1) {} _ accepted s.currentTime
        have noCas : ({} : MetaFlags).hasCas = false ∧ ({} : MetaFlags).reqCasId = 0 := ⟨rfl, rfl⟩
        have cas : q.flags.reqCasId = requestedCas t := by
          rw [found]
          exact (linePreparse_cas accepted s.currentTime noCas).2
        obtain ⟨-, left, -, rfl, rfl⟩ := doItemAlloc_made given
        refine ⟨Nat.not_lt.mp short, accepted, ?_, ?_, Nat.lt_succ_self _, ?_, ?_, rfl⟩
        · obtain ⟨notOpaque, notKey, notCas⟩ := letter_of_validLength valid
          have length : stashBody (t.word 2) = none := by
            rw [stashBody, if_neg notOpaque, if_neg notKey, if_neg notCas]
          rw [drop_two_eq (by omega), List.filterMap_cons, length]
        · intro token mem
          exact Bool.eq_false_iff.mpr (List.any_eq_false.mp long token mem)
        · rw [State.modify_heap_self, itemSetCas_key, ← key]
          simp only [update_self]
          rfl
        · rw [State.modify_heap_self, ← cas]
          simp only [itemGetCas, itemSetCas, State.modify]
          split <;> rfl

/-! ## Whether it says that -/

theorem isSome_flagOf {c : UInt8} :
    (flagOf c tokens).isSome = true ↔ ∃ token ∈ tokens, letter token = c := by
  rw [← not_iff_not, Bool.not_eq_true, Option.isSome_eq_false_iff, Option.isNone_iff_eq_none,
    flagOf_eq_none]
  push Not
  rfl

/-- The answer is right if the key and the unique are, where they are asked for. -/
theorem givenWords_iff {cas : Nat} (bin : it.keyBinary = (flagOf 98 (msetFlags t)).isSome)
    (plain : it.keyBinary = false → it.key = t.word 1) :
    (∀ token ∈ msetFlags t, givenWords it token = requestedWords t cas token) ↔
      ((flagOf 99 (msetFlags t)).isSome = true → it.cas = cas) ∧
        ((flagOf 107 (msetFlags t)).isSome = true → it.keyBinary = true →
          base64Encode it.key = t.word 1) := by
  have number : itoaU64 it.cas = itoaU64 cas ↔ it.cas = cas := by
    refine ⟨fun same => ?_, fun same => by rw [same]⟩
    rw [← (Counter.isDecimal_itoaU64 it.cas).value, same, (Counter.isDecimal_itoaU64 cas).value]
  simp only [isSome_flagOf, givenWords_eq, requestedWords, ← bin]
  constructor
  · intro same
    refine ⟨?_, ?_⟩
    · rintro ⟨token, mem, here⟩
      have words := same token mem
      rw [flagWords, flagWords, here] at words
      simpa [number] using words
    · rintro ⟨token, mem, here⟩ binary
      have words := same token mem
      rw [flagWords, flagWords, here, binary] at words
      simpa [keyWords] using words
  · rintro ⟨unique, key⟩ token mem
    rw [flagWords, flagWords]
    split
    · rfl
    split
    · rename_i here
      cases binary : it.keyBinary with
      | false => simp [plain binary]
      | true => simp [key ⟨token, mem, here⟩ binary]
    split
    · rename_i here
      rw [unique ⟨token, mem, here⟩]
    · rfl

theorem base64Encode_spaceless (raw : List UInt8) : 32 ∉ base64Encode raw := by
  intro mem
  have known := isSome_dtable_of_mem_encode mem
  cases known

theorem safeUnsigned_lt {word : List UInt8} {n : Nat} (number : safeUnsigned word = some n) :
    n < 2 ^ 64 := by
  simp only [safeUnsigned] at number
  split at number
  · cases number
  rename_i fits
  push Not at fits
  have bound : (if (scanNumber word).1 = true then u64 (2 ^ 64 - digitsValue (scanNumber word).2.1)
      else digitsValue (scanNumber word).2.1) < 2 ^ 64 := by
    split
    · exact Nat.mod_lt _ (by decide)
    · exact fits.2
  generalize (if (scanNumber word).1 = true then u64 (2 ^ 64 - digitsValue (scanNumber word).2.1)
      else digitsValue (scanNumber word).2.1) = l at number bound
  split at number
  · split at number
    · cases number
    · exact Option.some.inj number ▸ bound
  · cases number

theorem requestedCas_lt (t : Tokens) : requestedCas t < 2 ^ 64 := by
  rw [requestedCas]
  cases flagOf 67 (msetFlags t) with
  | none => decide
  | some token =>
    change (safeUnsigned token.tail).getD 0 < _
    cases number : safeUnsigned token.tail with
    | none => decide
    | some n => exact safeUnsigned_lt number

theorem nextCas_lt (s : State) : nextCas s < 2 ^ 64 := by
  rw [nextCas]
  split
  · exact Nat.mod_lt _ (by decide)
  · decide

namespace Began

variable {s₁ s₂ : State} {data : List UInt8} {done : Completion}
variable (line : Began sup s t p comm s₁)

include line

theorem keyBinary : (msetOptions sup s t).keyBinary = (flagOf 98 (msetFlags t)).isSome := by
  have start : ({} : MetaFlags).hasError = false := rfl
  have options : msetOptions sup s t =
      (linePreparse sup s.currentTime (t.word 1) {} (msetFlags t)).flags := by
    rw [msetOptions, preparse_of_accepted line.accepted _ start]
  rw [options]
  exact linePreparse_keyBinary line.accepted _ rfl

theorem few : ((msetFlags t).filterMap stashBody).length ≤ 3 :=
  length_filterMap_stashBody line.accepted.nodup

theorem bounded : ∀ body ∈ (msetFlags t).filterMap stashBody, body.length ≤ 32 := by
  intro body mem
  rw [← line.bodies] at mem
  obtain ⟨token, there, found⟩ := List.mem_filterMap.mp mem
  have fits := line.fits token there
  unfold stashBody at found
  split at found
  · rename_i here
    obtain rfl := Option.some.inj found
    exact length_opaqueToken here fits
  split at found
  · cases found
    decide
  split at found
  · cases found
    decide
  · cases found

theorem stash_spec (fresh : Nat → UInt8) :
    ∃ w, stash (t.words.drop 2) ⟨⟨writeBufferSize, fresh⟩, 0⟩ = .ok w ∧
      w.Holds writeBufferSize (spaced ((msetFlags t).filterMap stashBody)) := by
  have room := @answer_fits ⟨[], 0, false⟩ _ ⟨by decide, by decide, by decide⟩ line.few
    line.bounded
  obtain ⟨w, ran, holds⟩ := writes_stash line.fits ⟨⟨writeBufferSize, fresh⟩, 0⟩ writeBufferSize []
    (.empty _ _) (by rw [line.bodies, List.length_nil]; omega)
  rw [line.bodies, List.nil_append] at holds
  exact ⟨w, ran, holds⟩

theorem storedAs {setStale : Bool}
    (stored : storeNread (s₁.modify p fun it => { it with data }) p comm setStale done =
      .ok (some .stored, s₂)) :
    (s₂.heap p).key = lineKey sup (t.word 1) (msetFlags t) ∧
      itemGetCas s₂ (s₂.heap p) = (if comm = .append ∨ comm = .prepend then
        if s.settings.useCas then requestedCas t else 0 else nextCas s) ∧
      ∃ q, s₂.assoc (lineKey sup (t.word 1) (msetFlags t)) = some q ∧
        itemGetCas s₂ (s₂.heap q) = nextCas s := by
  have uploaded : Carries s₁ (s₁.modify p fun it => { it with data }) := .modify p rfl rfl
  have after := storeNread_storedAs (s := s₁.modify p fun it => { it with data }) line.lt stored
  obtain ⟨key, linked, cas⟩ := after.before uploaded.nextCas (uploaded.item p).1
  rw [line.key] at key linked
  rw [line.unique] at linked
  rw [uploaded.itemGetCas, uploaded.nextCas, line.cas, line.unique] at cas
  exact ⟨key, cas, linked⟩

/-- What the answer needs of the uploaded item is short. -/
theorem uploaded_short (decode : sup.decode = base64Decode) {it : Uploaded}
    (bin : it.keyBinary = (flagOf 98 (msetFlags t)).isSome)
    (key : it.key = lineKey sup (t.word 1) (msetFlags t)) (cas : it.cas < 2 ^ 64) : it.Short := by
  have decoded := length_base64Decode (t.word 1)
  have short := line.short
  rw [lineKey, decode] at key
  cases binary : flagOf 98 (msetFlags t) with
  | none =>
    rw [binary] at key bin
    refine ⟨by rw [key]; exact short, fun absurd => ?_, cas⟩
    rw [bin] at absurd
    cases absurd
  | some token =>
    rw [binary] at key
    have key : it.key = base64Decode (t.word 1) := key
    rw [← key] at decoded
    refine ⟨?_, fun _ => ?_, cas⟩
    · omega
    · omega

end Began

/-- The text is the one that was asked for if the key and the unique are right. -/
theorem exactReply_iff_tells {it : Uploaded} (metaResponseOld : Bool)
    (decode : sup.decode = base64Decode) (words : ∀ word ∈ t.words, 32 ∉ word)
    (decodes : (flagOf 98 (msetFlags t)).isSome = true → base64Decode (t.word 1) ≠ [])
    (bin : it.keyBinary = (flagOf 98 (msetFlags t)).isSome)
    (key : it.key = lineKey sup (t.word 1) (msetFlags t))
    (cas : it.cas = if comm = .append ∨ comm = .prepend then
      if s.settings.useCas then requestedCas t else 0 else nextCas s) :
    text (msetReply metaResponseOld (some .stored)) ++
        spaced ((msetFlags t).flatMap (givenWords it)) ++ crlf =
      exactReply metaResponseOld t (nextCas s) ↔ Tells s comm t := by
  have flags : ∀ token ∈ msetFlags t, 32 ∉ token := fun token mem =>
    words token (List.mem_of_mem_drop mem)
  have noSpace : 32 ∉ t.word 1 := by
    rw [Tokens.word]
    cases found : t.words[1]? with
    | none => simp
    | some key => exact words key (List.mem_of_getElem? found)
  have plain : it.keyBinary = false → it.key = t.word 1 := by
    intro binary
    rw [binary] at bin
    rw [key, lineKey, Option.isSome_eq_false_iff.mp bin.symm |> Option.isNone_iff_eq_none.mp]
    rfl
  have given : ∀ word ∈ (msetFlags t).flatMap (givenWords it), 32 ∉ word := by
    rw [funext (givenWords_eq it)]
    refine flagWords_spaceless flags (keyWords_spaceless ?_)
    split
    · exact base64Encode_spaceless _
    · rename_i binary
      rw [plain (Bool.eq_false_iff.mpr binary)]
      exact noSpace
  have requested : ∀ word ∈ (msetFlags t).flatMap (requestedWords t (nextCas s)), 32 ∉ word :=
    flagWords_spaceless flags (keyWords_spaceless noSpace)
  have lengths : ∀ token, (givenWords it token).length =
      (requestedWords t (nextCas s) token).length := by
    intro token
    rw [givenWords_eq, requestedWords, flagWords, flagWords, bin]
    split
    · rfl
    split
    · cases (flagOf 98 (msetFlags t)).isSome <;> rfl
    · split <;> rfl
  rw [exactReply, List.append_left_inj, List.append_right_inj, spaced_inj given requested,
    flatMap_eq_iff lengths, givenWords_iff bin plain, cas, bin]
  have unique : (if comm = .append ∨ comm = .prepend then
      if s.settings.useCas then requestedCas t else 0 else nextCas s) = nextCas s ↔
      ((comm = .append ∨ comm = .prepend) → s.settings.useCas = true →
        requestedCas t = u64 (s.casId + 1)) := by
    rw [nextCas]
    by_cases concat : comm = .append ∨ comm = .prepend
    · by_cases useCas : s.settings.useCas = true <;> simp [concat, useCas]
    · simp [concat]
  have canonical : (flagOf 98 (msetFlags t)).isSome = true →
      (base64Encode it.key = t.word 1 ↔ ∃ raw, raw ≠ [] ∧ t.word 1 = base64Encode raw) := by
    intro binary
    obtain ⟨token, found⟩ := Option.isSome_iff_exists.mp binary
    have decoded : it.key = base64Decode (t.word 1) := by
      rw [key, lineKey, found, decode]
      rfl
    rw [decoded]
    exact encode_decode_iff (decodes binary)
  constructor
  · rintro ⟨shown, sent⟩
    exact ⟨fun asked => unique.mp (shown asked),
      fun asked binary => (canonical binary).mp (sent asked binary)⟩
  · rintro ⟨shown, sent⟩
    exact ⟨fun asked => unique.mpr (shown asked),
      fun asked binary => (canonical binary).mpr (sent asked binary)⟩

/-- The answer to an `ms` that was stored is made without leaving the write buffer. It repeats
the request and tells the unique of the item that the key has now, exactly if the request does
not ask for what the uploaded item cannot tell. -/
theorem exactReply_iff {line data : List UInt8} {s₁ s₂ : State} {done : Completion}
    (decode : sup.decode = base64Decode)
    (began : processMsetCommand sup s (tokenizeCommand line) = (.upload (p, comm) vlen, s₁))
    (stored : storeNread (s₁.modify p fun it => { it with data }) p comm
      ((msetOptions sup s (tokenizeCommand line)).setStale && comm = .cas) done =
        .ok (some .stored, s₂))
    (fresh : Nat → UInt8) (metaResponseOld : Bool) :
    ∃ waiting reply q, beginMset sup fresh s (tokenizeCommand line) = .ok (some waiting, s₁) ∧
      completeMset metaResponseOld data done waiting s₁ = .ok (reply, doItemRemove s₂ p) ∧
      s₂.assoc (lineKey sup ((tokenizeCommand line).word 1) (msetFlags (tokenizeCommand line))) =
        some q ∧
      (reply = exactReply metaResponseOld (tokenizeCommand line) (itemGetCas s₂ (s₂.heap q)) ↔
        Tells s comm (tokenizeCommand line)) := by
  have spaceless := @tokenizeCommand_word line
  generalize tokenizeCommand line = t at began stored spaceless ⊢
  have line := began_of_upload began
  obtain ⟨key, cas, q, here, unique⟩ := line.storedAs stored
  obtain ⟨w, ran, holds⟩ := line.stash_spec fresh
  have bin := line.keyBinary
  -- the answer
  let it : Uploaded :=
    ⟨(s₂.heap p).key, itemGetCas s₂ (s₂.heap p), (msetOptions sup s t).keyBinary⟩
  have small : it.cas < 2 ^ 64 := by
    change itemGetCas s₂ (s₂.heap p) < _
    rw [cas]
    split
    · split
      · exact requestedCas_lt t
      · decide
    · exact nextCas_lt s
  have short : it.Short := line.uploaded_short decode bin key small
  have flags : ∀ token ∈ msetFlags t, 32 ∉ token := fun token mem =>
    spaceless (List.mem_of_mem_drop mem)
  have answer := finalizeMset_spec metaResponseOld short.1 (fun body => stashed_of_mem flags) holds
    (answer_fits short line.few line.bounded)
  rw [flatMap_answerWords] at answer
  refine ⟨⟨p, comm, (msetOptions sup s t).setStale && comm = .cas,
    (msetOptions sup s t).keyBinary, w⟩, text (msetReply metaResponseOld (some .stored)) ++
      spaced ((msetFlags t).flatMap (givenWords it)) ++ crlf, q, ?_, ?_, here, ?_⟩
  · rw [beginMset, began]
    simp only [ran, Exec.ok_bind, Exec.pure_eq_ok]
  · simp only [completeMset, stored, Exec.ok_bind, msetAnswer]
    rw [answer]
    rfl
  · rw [unique]
    refine exactReply_iff_tells metaResponseOld decode (fun _ => spaceless) ?_ bin key cas
    intro binary
    obtain ⟨token, mem, letter⟩ := isSome_flagOf.mp binary
    have ok := line.accepted.ok token mem
    rw [eq_cons_of_letter (by decide) letter] at ok
    rw [← decode]
    exact of_decide_eq_true ok

/-! ## Two requests -/

theorem eq_upload {r : Begun (ItemPtr × Nread) × State} {n : Nat}
    (waits : (match r.1 with
      | .upload req n => some (req, n)
      | _ => none) = some ((p, comm), n)) : ∃ s₁, r = (.upload (p, comm) n, s₁) := by
  obtain ⟨begun, s₁⟩ := r
  cases begun with
  | upload req m =>
    cases waits
    exact ⟨s₁, rfl⟩
  | refused | swallow => cases waits

theorem eq_ok_of_fst {α : Type} {r : Exec (α × State)} {a : α}
    (ran : r.toOption.map Prod.fst = some a) : ∃ s, r = .ok (a, s) := by
  cases r with
  | error trap => cases ran
  | ok result =>
    cases ran
    exact ⟨result.2, rfl⟩

/-- `ms k 1 c Oab k` in an empty store. -/
theorem exactReply_set :
    let sup : Supply := ⟨0, fun _ _ => some ⟨Vector.replicate 32 0, 0, fun _ => 0⟩, base64Decode⟩
    let s := State.init defaultSettings
    let t := tokenizeCommand (text "ms k 1 c Oab k")
    let done : Completion := ⟨⟨none, false, fun _ => 0⟩, fun _ => 0, fun _ => none⟩
    ∃ s₁ s₂ waiting reply q, processMsetCommand sup s t = (.upload (0, .set) 1, s₁) ∧
      storeNread (s₁.modify 0 fun it => { it with data := [49, 13, 10] }) 0 .set
        ((msetOptions sup s t).setStale && Nread.set = .cas) done = .ok (some .stored, s₂) ∧
      beginMset sup (fun _ => 0) s t = .ok (some waiting, s₁) ∧
      completeMset false [49, 13, 10] done waiting s₁ = .ok (reply, doItemRemove s₂ 0) ∧
      s₂.assoc (lineKey sup (t.word 1) (msetFlags t)) = some q ∧
      reply = exactReply false t (itemGetCas s₂ (s₂.heap q)) := by
  intro sup s t done
  have began : ∃ s₁, processMsetCommand sup s t = (.upload (0, .set) 1, s₁) :=
    eq_upload (by decide +kernel)
  have stored : ∃ s₂, storeNread ((processMsetCommand sup s t).2.modify 0 fun it =>
      { it with data := [49, 13, 10] }) 0 .set
        ((msetOptions sup s t).setStale && Nread.set = .cas) done = .ok (some .stored, s₂) :=
    eq_ok_of_fst (by decide +kernel)
  have tells : Tells s .set t := by
    refine ⟨fun _ concat => ?_, fun _ binary => ?_⟩
    · simp at concat
    · have plain : (flagOf 98 (msetFlags t)).isSome = false := by decide +kernel
      rw [plain] at binary
      cases binary
  obtain ⟨s₁, began⟩ := began
  obtain ⟨s₂, stored⟩ := stored
  rw [began] at stored
  obtain ⟨waiting, reply, q, waits, answered, here, exact⟩ :=
    exactReply_iff (s := s) (p := 0) rfl began stored (fun _ => 0) false
  exact ⟨s₁, s₂, waiting, reply, q, began, stored, waits, answered, here, exact.mpr tells⟩

private theorem eq_ok_of_toOption {α : Type} {x : Exec α} {v : α} (ran : x.toOption = some v) :
    x = .ok v := by
  cases x with
  | error => cases ran
  | ok => exact congrArg _ (Option.some.inj ran)

/-- `ms k 1 MA c` is answered with the unique 0, and `gets k` then shows another one. -/
theorem append_tells_zero :
    let sup : Supply := ⟨0, fun _ _ => some ⟨Vector.replicate 32 0, 0, fun _ => 0⟩, base64Decode⟩
    let s := single
      { noItem with
        key := [107], linked := true, refcount := 1, cas := 1, data := [49, 13, 10] }
    let t := tokenizeCommand (text "ms k 1 MA c")
    let done : Completion :=
      ⟨⟨some ⟨Vector.replicate 32 0, 0, fun _ => 0⟩, false, fun _ => 0⟩, fun _ => 0, fun _ => none⟩
    ∃ waiting s₁ reply s₂, beginMset sup (fun _ => 0) s t = .ok (some waiting, s₁) ∧
      completeMset false [50, 13, 10] done waiting s₁ = .ok (reply, s₂) ∧
      reply = text "HD c0" ++ crlf ∧
      (liveItem s₂ [107]).map (fun q => itemGetCas s₂ (s₂.heap q)) = some 2 ∧
      reply ≠ exactReply false t 2 := by
  intro sup s t done
  have ran : ((beginMset sup (fun _ => 0) s t).toOption.bind fun begun =>
      begun.1.bind fun waiting =>
        (completeMset false [50, 13, 10] done waiting begun.2).toOption.map fun ended =>
          (ended.1, (liveItem ended.2 [107]).map fun q => itemGetCas ended.2 (ended.2.heap q))) =
      some (text "HD c0" ++ crlf, some 2) := by decide +kernel
  have other : text "HD c0" ++ crlf ≠ exactReply false t 2 := by decide +kernel
  obtain ⟨⟨_, s₁⟩, begun, ran⟩ := Option.bind_eq_some_iff.mp ran
  obtain ⟨waiting, rfl, ran⟩ := Option.bind_eq_some_iff.mp ran
  obtain ⟨⟨reply, s₂⟩, answered, shown⟩ := Option.map_eq_some_iff.mp ran
  obtain ⟨rfl, cas⟩ := Prod.mk.inj shown
  exact ⟨waiting, s₁, _, s₂, eq_ok_of_toOption begun, eq_ok_of_toOption answered, rfl, cas, other⟩

end Kvsev.Meta
