import Kvsev.Merkle.Allocation
import Kvsev.Transition.Run

/-!
# Sequences of calls on an array list

A list is created, used by any sequence of calls and deleted. The calls act on a
list of digests as long as none of them appends to `2^26` elements, where the
size of the next block wraps to zero. The store is released exactly once, unless
`mt_al_truncate` released it and nothing was appended since: the pointer is kept,
and `mt_al_delete` releases it again.
-/

namespace Kvsev.Merkle.OnHeap

open Memory Transition

/-- One call on a list. -/
inductive AlCall where
  | add (hash : Option Digest) (alloc : Alloc)
  | update (hash : Option Digest) (offset : Nat)
  | addOrUpdate (hash : Option Digest) (offset : Nat) (alloc : Alloc)
  | truncate (elems : Nat) (alloc : Alloc)
  | get (offset : Nat)

/-- What a call returns. -/
inductive Reply where
  | code (r : MtError)
  | entry (hash : Option Digest)

namespace AlCall

def run (al : AlHeap) : AlCall → Exec (Reply × AlHeap)
  | add hash alloc => do
    let (r, al) ← mtAlAdd al hash alloc
    return (.code r, al)
  | update hash offset => do
    let (r, al) ← mtAlUpdate al hash offset
    return (.code r, al)
  | addOrUpdate hash offset alloc => do
    let (r, al) ← mtAlAddOrUpdate al hash offset alloc
    return (.code r, al)
  | truncate elems alloc => do
    let (r, al) ← mtAlTruncate al elems alloc
    return (.code r, al)
  | get offset => do
    let hash ← mtAlGet al offset
    return (.entry hash, al)

/-- Append, or report that the block needed for it was refused. -/
def Appends (xs : List Digest) (hash : Digest) (alloc : Alloc) (reply : Reply)
    (xs' : List Digest) : Prop :=
  needsBlock xs.length = true ∧ alloc = none ∧ reply = .code .outOfMemory ∧ xs' = xs ∨
    ¬ (needsBlock xs.length = true ∧ alloc = none) ∧ reply = .code .success ∧ xs' = xs ++ [hash]

/-- The call on a list of digests: append, replace, append or replace, prefix,
lookup. Bad arguments change nothing. -/
def Acts (xs : List Digest) (call : AlCall) (reply : Reply) (xs' : List Digest) : Prop :=
  match call with
  | add (some hash) alloc => Appends xs hash alloc reply xs'
  | update (some hash) offset =>
    if offset < xs.length then reply = .code .success ∧ xs' = xs.set offset hash
    else reply = .code .illegalParam ∧ xs' = xs
  | addOrUpdate (some hash) offset alloc =>
    if offset < xs.length then reply = .code .success ∧ xs' = xs.set offset hash
    else if offset = xs.length then Appends xs hash alloc reply xs'
    else reply = .code .illegalParam ∧ xs' = xs
  | truncate elems alloc =>
    if elems < xs.length then
      (reply = .code .success ∨ reply = .code .outOfMemory ∧ alloc = none) ∧ xs' = xs.take elems
    else reply = .code .illegalParam ∧ xs' = xs
  | get offset => reply = .entry xs[offset]? ∧ xs' = xs
  | add none _ | update none _ | addOrUpdate none _ _ => reply = .code .illegalParam ∧ xs' = xs

/-- The call appends a digest, if the list has `n` elements. -/
def AppendsAt (n : Nat) : AlCall → Prop
  | add hash _ => hash.isSome
  | addOrUpdate hash offset _ => hash.isSome ∧ offset = n
  | update .. | truncate .. | get .. => False

end AlCall

/-- The elements lie in the block last obtained, and no product of an index and
the digest length wraps. -/
structure AlHeap.Within (al : AlHeap) (xs : List Digest) : Prop where
  count : al.elems = xs.length
  noWrap : xs.length * hashLength < 2 ^ 32
  block : xs ≠ [] → ∃ i block, al.store = some i ∧ i + 1 = al.heap.blocks.length ∧
    al.heap.live? i = some block ∧ xs.length * hashLength ≤ block.size

/-- Each call returns and acts on the list, with all elements inside the store
and every size it asked for large enough. After the last call `mt_al_delete`
returns and every block was released; a second release would not return. -/
def Refines (al : AlHeap) (xs : List Digest) : List AlCall → Prop
  | [] => ∃ heap, mtAlDelete al = .ok heap ∧ heap.Released
  | call :: calls => ∃ reply al' xs', call.run al = .ok (reply, al') ∧ call.Acts xs reply xs' ∧
      al'.Within xs' ∧ Asked al.heap al'.heap xs'.length ∧ Refines al' xs' calls

/-- The list after a call. -/
def alStep (al : AlHeap) (call : AlCall) : Exec AlHeap := do
  let done ← call.run al
  return done.2

/-- The call does not append to `2^26` elements. -/
def Roomy (al : AlHeap) (call : AlCall) : Prop := call.AppendsAt al.elems → al.elems ≠ 2 ^ 26

/-- Some `mt_al_truncate` emptied the list, and no later call appends a digest. -/
def LeftEmptied (al : AlHeap) (calls : List AlCall) : Prop :=
  ∃ before alloc after al', calls = before ++ .truncate 0 alloc :: after ∧
    run alStep al before = .ok al' ∧ 0 < al'.elems ∧ ∀ call ∈ after, ¬ call.AppendsAt 0

/-! ## One call -/

section

variable {al : AlHeap} {xs : List Digest}

theorem AlHeap.Holds.within (holds : al.Holds xs) : al.Within xs where
  count := holds.elems
  noWrap := by
    have fits := holds.list.fits
    simp only [hashLength]
    omega
  block := by
    intro nonempty
    obtain ⟨block, c, target, size, le, -⟩ := holds.list.block nonempty
    obtain ⟨i, pointer, live⟩ := live_of_storeAt target
    refine ⟨i, block, pointer, (holds.owned i block live).2, live, ?_⟩
    rw [size]
    exact Nat.mul_le_mul_right _ le

/-- What a call with room does, and when it leaves the pointer dangling. -/
structure Stepped (al : AlHeap) (xs : List Digest) (call : AlCall) (reply : Reply) (al' : AlHeap)
    (xs' : List Digest) : Prop where
  ran : call.run al = .ok (reply, al')
  acts : call.Acts xs reply xs'
  holds : al'.Holds xs'
  asked : Asked al.heap al'.heap xs'.length
  dangling : al'.Dangling ↔ al.Dangling ∧ ¬ call.AppendsAt 0 ∨
    ∃ alloc, call = .truncate 0 alloc ∧ 0 < al.elems

variable {call : AlCall} {reply : Reply}

/-- A call that changes nothing. -/
theorem AlHeap.Holds.unchanged (holds : al.Holds xs) (ran : call.run al = .ok (reply, al))
    (acts : call.Acts xs reply xs) (noAppend : al.Dangling → ¬ call.AppendsAt 0)
    (noTruncate : ∀ alloc, call = .truncate 0 alloc → al.elems = 0) :
    Stepped al xs call reply al xs := by
  refine ⟨ran, acts, holds, Asked.refl _ _, fun d => .inl ⟨d, noAppend d⟩, ?_⟩
  rintro (⟨d, -⟩ | ⟨alloc, same, pos⟩)
  · exact d
  · exact absurd (noTruncate alloc same) (Nat.ne_of_gt pos)

/-- A call that leaves a live store, or none. -/
theorem AlHeap.Holds.changed {al' : AlHeap} {xs' : List Digest}
    (ran : call.run al = .ok (reply, al')) (acts : call.Acts xs reply xs') (holds : al'.Holds xs')
    (asked : Asked al.heap al'.heap xs'.length) (noDangle : ¬ al'.Dangling)
    (append : al.Dangling → call.AppendsAt 0)
    (noTruncate : ∀ alloc, call = .truncate 0 alloc → al.elems = 0) :
    Stepped al xs call reply al' xs' := by
  refine ⟨ran, acts, holds, asked, fun d => absurd d noDangle, ?_⟩
  rintro (⟨d, no⟩ | ⟨alloc, same, pos⟩)
  · exact absurd (append d) no
  · exact absurd (noTruncate alloc same) (Nat.ne_of_gt pos)

theorem AlHeap.Holds.step (holds : al.Holds xs) (roomy : Roomy al call) :
    ∃ reply al' xs', Stepped al xs call reply al' xs' := by
  have below := holds.below_max
  have count := holds.elems
  have empty_of_dangling : al.Dangling → xs = [] := by
    intro dangling
    by_contra nonempty
    exact holds.not_dangling nonempty dangling
  cases call with
  | add hash alloc =>
    cases hash with
    | none =>
      refine ⟨_, _, _, holds.unchanged ?_ ⟨rfl, rfl⟩ (by rintro _ ⟨⟩) (by rintro _ ⟨⟩)⟩
      simp [AlCall.run, mtAlAdd, Exec.assert_of below]
    | some hash =>
      obtain ⟨r, al', xs', done, holds', noDangle, asked, outcome⟩ :=
        holds.add hash alloc (count ▸ roomy rfl)
      refine ⟨.code r, al', xs', changed ?_ ?_ holds' asked noDangle (fun _ => rfl)
        (by rintro _ ⟨⟩)⟩
      · simp [AlCall.run, done]
      · rcases outcome with ⟨needed, failed, rfl, rfl⟩ | ⟨lucky, rfl, rfl⟩
        · exact .inl ⟨needed, failed, rfl, rfl⟩
        · exact .inr ⟨lucky, rfl, rfl⟩
  | update hash offset =>
    cases hash with
    | none =>
      refine ⟨_, _, _, holds.unchanged ?_ ⟨rfl, rfl⟩ (by rintro _ ⟨⟩) (by rintro _ ⟨⟩)⟩
      simp [AlCall.run, mtAlUpdate, Exec.assert_of below]
    | some hash =>
      by_cases inRange : offset < xs.length
      · obtain ⟨al', done, holds', noDangle, same⟩ := holds.update hash inRange
        refine ⟨.code .success, al', xs.set offset hash, changed ?_ ?_ holds'
          ⟨[], same, List.forall_mem_nil _⟩ noDangle ?_ (by rintro _ ⟨⟩)⟩
        · simp [AlCall.run, done]
        · simp [AlCall.Acts, inRange]
        · intro dangling
          rw [empty_of_dangling dangling] at inRange
          cases inRange
      · refine ⟨.code .illegalParam, _, _, holds.unchanged ?_ ?_ (by rintro _ ⟨⟩)
          (by rintro _ ⟨⟩)⟩
        · have outOfRange : ¬ offset < al.elems := by omega
          simp [AlCall.run, mtAlUpdate, Exec.assert_of below, outOfRange]
        · simp [AlCall.Acts, inRange]
  | addOrUpdate hash offset alloc =>
    cases hash with
    | none =>
      refine ⟨_, _, _, holds.unchanged ?_ ⟨rfl, rfl⟩ (by rintro _ ⟨⟨⟩, _⟩) (by rintro _ ⟨⟩)⟩
      simp [AlCall.run, mtAlAddOrUpdate, Exec.assert_of below]
    | some hash =>
      rcases Nat.lt_trichotomy offset xs.length with before | atEnd | past
      · obtain ⟨al', done, holds', noDangle, same⟩ := holds.update hash before
        refine ⟨.code .success, al', xs.set offset hash, changed ?_ ?_ holds'
          ⟨[], same, List.forall_mem_nil _⟩ noDangle ?_ (by rintro _ ⟨⟩)⟩
        · have notEnd : offset ≠ al.elems := by omega
          have notPast : ¬ al.elems < offset := by omega
          simp [AlCall.run, mtAlAddOrUpdate, Exec.assert_of below, notPast, notEnd, done]
        · simp [AlCall.Acts, before]
        · intro dangling
          rw [empty_of_dangling dangling] at before
          cases before
      · obtain ⟨r, al', xs', done, holds', noDangle, asked, outcome⟩ :=
          holds.add hash alloc (count ▸ roomy ⟨rfl, by omega⟩)
        refine ⟨.code r, al', xs', changed ?_ ?_ holds' asked noDangle ?_ (by rintro _ ⟨⟩)⟩
        · have notPast : ¬ al.elems < offset := by omega
          have isEnd : offset = al.elems := by omega
          simp [AlCall.run, mtAlAddOrUpdate, Exec.assert_of below, isEnd, done]
        · simp only [AlCall.Acts, atEnd, Nat.lt_irrefl, if_false, if_true]
          rcases outcome with ⟨needed, failed, rfl, rfl⟩ | ⟨lucky, rfl, rfl⟩
          · exact .inl ⟨needed, failed, rfl, rfl⟩
          · exact .inr ⟨lucky, rfl, rfl⟩
        · intro dangling
          rw [empty_of_dangling dangling] at atEnd
          exact ⟨rfl, atEnd⟩
      · refine ⟨.code .illegalParam, _, _, holds.unchanged ?_ ?_ ?_ (by rintro _ ⟨⟩)⟩
        · have past' : al.elems < offset := by omega
          simp [AlCall.run, mtAlAddOrUpdate, Exec.assert_of below, past']
        · have notBefore : ¬ offset < xs.length := by omega
          have notEnd : ¬ offset = xs.length := by omega
          simp [AlCall.Acts, notBefore, notEnd]
        · rintro - ⟨-, zero⟩
          omega
  | truncate elems alloc =>
    by_cases shorter : elems < xs.length
    · obtain ⟨r, al', done, holds', code, dangling, asked⟩ := holds.truncate alloc shorter
      have kept : (xs.take elems).length = elems := List.length_take_of_le (Nat.le_of_lt shorter)
      refine ⟨.code r, al', xs.take elems, ?_, ?_, holds', kept.symm ▸ asked, ?_⟩
      · simp [AlCall.run, done]
      · rcases code with rfl | ⟨rfl, rfl⟩ <;> simp [AlCall.Acts, shorter]
      · have nonempty : xs ≠ [] := List.ne_nil_of_length_pos (Nat.zero_lt_of_lt shorter)
        rw [dangling]
        constructor
        · rintro rfl
          exact .inr ⟨alloc, rfl, by omega⟩
        · rintro (⟨d, -⟩ | ⟨_, same, -⟩)
          · exact absurd d (holds.not_dangling nonempty)
          · cases same
            rfl
    · refine ⟨.code .illegalParam, _, _, holds.unchanged ?_ ?_ (by rintro _ ⟨⟩) ?_⟩
      · have notShorter : ¬ elems < al.elems := by omega
        simp [AlCall.run, mtAlTruncate, Exec.assert_of below, notShorter]
      · simp [AlCall.Acts, shorter]
      · intro _ same
        cases same
        omega
  | get offset =>
    refine ⟨_, _, _, holds.unchanged ?_ ⟨rfl, rfl⟩ (by rintro _ ⟨⟩) (by rintro _ ⟨⟩)⟩
    simp [AlCall.run, holds.get]

/-- Appending to `2^26` elements loses the store. -/
theorem AlHeap.Holds.full (holds : al.Holds xs) (appends : call.AppendsAt al.elems)
    (full : al.elems = 2 ^ 26) :
    ∃ al', call.run al = .ok (.code .outOfMemory, al') ∧ al'.Dangling := by
  have lost : ∀ hash alloc, ∃ al', mtAlAdd al (some hash) alloc = .ok (.outOfMemory, al') ∧
      al'.Dangling := by
    intro hash alloc
    have ran := mtAlAdd_full hash alloc holds.list (holds.elems ▸ full)
    obtain ⟨al', done, view, -⟩ := mtAlAdd_follows holds ran
    refine ⟨al', done, ?_⟩
    rw [Dangling, view]
  cases call with
  | add hash alloc =>
    obtain ⟨hash, rfl⟩ := Option.isSome_iff_exists.mp appends
    obtain ⟨al', done, dangling⟩ := lost hash alloc
    exact ⟨al', by simp [AlCall.run, done], dangling⟩
  | addOrUpdate hash offset alloc =>
    obtain ⟨present, rfl⟩ := appends
    obtain ⟨hash, rfl⟩ := Option.isSome_iff_exists.mp present
    obtain ⟨al', done, dangling⟩ := lost hash alloc
    refine ⟨al', ?_, dangling⟩
    simp [AlCall.run, mtAlAddOrUpdate, Exec.assert_of holds.below_max, done]
  | update | truncate | get => cases appends

/-- A dangling pointer shows no elements. -/
theorem AlHeap.Within.empty_of_dangling (within : al.Within xs) (dangling : al.Dangling) :
    xs = [] := by
  by_contra nonempty
  obtain ⟨i, block, pointer, -, live, -⟩ := within.block nonempty
  rw [Dangling, view, pointer, storeAt_live live] at dangling
  cases dangling

/-- The reply and the old list determine the new one. -/
theorem AlCall.Acts.unique {ys zs : List Digest}
    (first : call.Acts xs reply ys) (second : call.Acts xs reply zs) : ys = zs := by
  have appends : ∀ {hash alloc}, Appends xs hash alloc reply ys → Appends xs hash alloc reply zs →
      ys = zs := by
    rintro hash alloc (⟨-, -, rfl, rfl⟩ | ⟨-, rfl, rfl⟩) (⟨-, -, same, rfl⟩ | ⟨-, same, rfl⟩)
    · rfl
    · cases same
    · cases same
    · rfl
  cases call with
  | add hash alloc =>
    cases hash with
    | none => exact first.2.trans second.2.symm
    | some hash => exact appends first second
  | update hash offset | addOrUpdate hash offset alloc =>
    cases hash with
    | none => exact first.2.trans second.2.symm
    | some hash =>
      simp only [Acts] at first second
      split_ifs at first second <;>
        first | exact appends first second | exact first.2.trans second.2.symm
  | truncate elems alloc =>
    simp only [Acts] at first second
    split_ifs at first second <;> exact first.2.trans second.2.symm
  | get offset => exact first.2.trans second.2.symm

/-- An append keeps what was there. -/
theorem AlCall.Acts.ne_nil {ys : List Digest}
    (acts : call.Acts xs reply ys) (appends : call.AppendsAt xs.length) (nonempty : xs ≠ []) :
    ys ≠ [] := by
  have longer : ∀ {hash alloc}, Appends xs hash alloc reply ys → ys ≠ [] := by
    rintro hash alloc (⟨-, -, -, rfl⟩ | ⟨-, -, rfl⟩)
    · exact nonempty
    · simp
  cases call with
  | add hash alloc =>
    obtain ⟨hash, rfl⟩ := Option.isSome_iff_exists.mp appends
    exact longer acts
  | addOrUpdate hash offset alloc =>
    obtain ⟨present, rfl⟩ := appends
    obtain ⟨hash, rfl⟩ := Option.isSome_iff_exists.mp present
    simp only [Acts, Nat.lt_irrefl, if_false, if_true] at acts
    exact longer acts
  | update | truncate | get => cases appends

/-- The last release returns unless the pointer dangles. -/
theorem AlHeap.Holds.delete_iff (holds : al.Holds xs) :
    (∃ heap, mtAlDelete al = .ok heap ∧ heap.Released) ↔ ¬ al.Dangling := by
  rw [mtAlDelete, Dangling, view]
  constructor
  · rintro ⟨heap, done, -⟩ dangling
    cases pointer : al.store with
    | none => simp [pointer, storeAt] at dangling
    | some i =>
      rw [pointer, Heap.free, Exec.bind_eq_ok] at done
      obtain ⟨block, found, -⟩ := done
      rw [pointer, storeAt_live (Exec.access_eq_ok.mp found)] at dangling
      cases dangling
  · intro sound
    have done : ∃ heap, al.heap.free al.store = .ok heap := by
      cases pointer : al.store with
      | none => exact ⟨al.heap, rfl⟩
      | some i =>
        cases live : al.heap.live? i with
        | none => exact absurd (pointer ▸ storeAt_released live) sound
        | some block => exact ⟨al.heap.setBlock i none, by simp [Heap.free, live]⟩
    obtain ⟨heap, done⟩ := done
    exact ⟨heap, done, holds.owned.free done⟩

end

/-! ## Whole sequences -/

theorem leftEmptied_cons {al al' : AlHeap} {call : AlCall} {calls : List AlCall}
    (stepped : alStep al call = .ok al') :
    LeftEmptied al (call :: calls) ↔
      (∃ alloc, call = .truncate 0 alloc ∧ 0 < al.elems) ∧ (∀ c ∈ calls, ¬ c.AppendsAt 0) ∨
        LeftEmptied al' calls := by
  constructor
  · rintro ⟨before, alloc, after, mid, split, ran, pos, later⟩
    cases before with
    | nil =>
      cases split
      cases ran
      exact .inl ⟨⟨alloc, rfl, pos⟩, later⟩
    | cons first before =>
      cases split
      rw [run_cons stepped] at ran
      exact .inr ⟨before, alloc, after, mid, rfl, ran, pos, later⟩
  · rintro (⟨⟨alloc, rfl, pos⟩, later⟩ | ⟨before, alloc, after, mid, rfl, ran, pos, later⟩)
    · exact ⟨[], alloc, calls, al, rfl, rfl, pos, later⟩
    · exact ⟨call :: before, alloc, after, mid, rfl, by rwa [run_cons stepped], pos, later⟩

/-- The calls refine the list operations from any state, and the store is released
once, exactly when there is room for each append and no release is left for
`mt_al_delete` to repeat. -/
theorem AlHeap.Holds.refines_iff {al : AlHeap} {xs : List Digest} (holds : al.Holds xs)
    (calls : List AlCall) :
    Refines al xs calls ↔ Meets alStep Roomy al calls ∧
      ¬ (LeftEmptied al calls ∨ al.Dangling ∧ ∀ call ∈ calls, ¬ call.AppendsAt 0) := by
  induction calls generalizing al xs with
  | nil =>
    rw [Refines, holds.delete_iff]
    have never : ¬ LeftEmptied al [] := by
      rintro ⟨before, _, _, _, split, -⟩
      cases before <;> cases split
    simp [Meets, never]
  | cons call calls ih =>
    by_cases roomy : Roomy al call
    · obtain ⟨reply, al', xs', done⟩ := holds.step roomy
      have stepped : alStep al call = .ok al' := by simp [alStep, done.ran]
      have rest : Refines al xs (call :: calls) ↔ Refines al' xs' calls := by
        constructor
        · rintro ⟨reply₁, al₁, xs₁, ran, acts, -, -, more⟩
          cases done.ran.symm.trans ran
          rwa [acts.unique done.acts] at more
        · exact fun more => ⟨reply, al', xs', done.ran, done.acts, done.holds.within,
            done.asked, more⟩
      have meets : Meets alStep Roomy al (call :: calls) ↔ Meets alStep Roomy al' calls := by
        constructor
        · exact fun all => all.2 al' stepped
        · refine fun all => ⟨roomy, fun al₁ ran => ?_⟩
          cases stepped.symm.trans ran
          exact all
      rw [rest, ih done.holds, meets, leftEmptied_cons stepped, done.dangling]
      refine and_congr_right fun _ => not_congr ?_
      rw [List.forall_mem_cons]
      constructor
      · rintro (later | ⟨⟨dangling, no⟩ | emptied, later⟩)
        · exact .inl (.inr later)
        · exact .inr ⟨dangling, no, later⟩
        · exact .inl (.inl ⟨emptied, later⟩)
      · rintro ((⟨emptied, later⟩ | later) | ⟨dangling, no, later⟩)
        · exact .inr ⟨.inr emptied, later⟩
        · exact .inl later
        · exact .inr ⟨.inl ⟨dangling, no⟩, later⟩
    · -- the first call that finds no room already loses the store
      obtain ⟨appends, full⟩ := Classical.not_imp.mp roomy
      have full := not_not.mp full
      obtain ⟨al', ran', dangling⟩ := holds.full appends full
      constructor
      · rintro ⟨reply, al₁, xs₁, ran, acts, within, -⟩
        cases ran'.symm.trans ran
        refine absurd (within.empty_of_dangling dangling) (acts.ne_nil ?_ ?_)
        · rwa [← holds.elems]
        · rintro rfl
          rw [holds.elems] at full
          cases full
      · exact fun both => absurd both.1.1 roomy

theorem array_list_refined_iff (calls : List AlCall) :
    Refines mtAlCreate [] calls ↔
      Meets alStep Roomy mtAlCreate calls ∧ ¬ LeftEmptied mtAlCreate calls := by
  have fresh : ¬ mtAlCreate.Dangling := by
    rw [AlHeap.Dangling]
    rintro ⟨⟩
  rw [mtAlCreate_holds.refines_iff calls]
  simp [fresh]

/-- One digest is added and the list is emptied; `mt_al_delete` then releases the
store a second time. -/
theorem emptied_store_released_twice :
    let calls := [.add (some (Vector.replicate hashLength 7)) (some fun _ => 0), .truncate 0 none]
    (∃ al, run alStep mtAlCreate calls = .ok al ∧ mtAlDelete al = .error .invalidAccess) ∧
      ¬ Refines mtAlCreate [] calls := by
  refine ⟨⟨_, rfl, rfl⟩, ?_⟩
  rw [mtAlCreate_holds.refines_iff]
  refine fun both => both.2 (.inl ⟨[_], none, [], _, rfl, rfl, ?_, nofun⟩)
  decide

end Kvsev.Merkle.OnHeap
