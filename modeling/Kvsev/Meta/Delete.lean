import Kvsev.Meta.Commands
import Kvsev.Meta.Visible

/-!
# `md` with a unique

`md key C<unique>` should only touch the item if the unique is the item's. The preparser
reads it into its flags, but `process_mdelete_command` compares the item's with a variable of
its own, which stays zero. So the item is deleted or marked exactly if its unique is zero.
-/

namespace Kvsev.Meta

open Server Connection

/-- A line of `md` with a unique that gets as far as the item. -/
structure GuardedDelete (sup : Supply) (t : Tokens) (cas : Nat) : Prop extends Checked sup t where
  fits : (flagTokens t).any opaqueTooLong = false
  guard : ∃ number, 67 :: number ∈ flagTokens t ∧ safeUnsigned number = some cas

/-- The item after it was marked as stale. -/
def staleFace (s : State) (p : ItemPtr) (ttl : Option Nat) : Face :=
  let it := face (s.heap p)
  { it with
    exptime := ttl.getD it.exptime
    cas := if s.settings.useCas then u64 (s.casId + 1) else it.cas
    stale := true, tokenSent := false }

/-- What `md` should do to a store `s`, given the unique, and what the line asks for besides:
delete the item, or mark it and give it a new expiry. -/
def Honoured (s : State) (key : Key) (cas : Nat) (stale : Bool) (ttl : Option Nat)
    (after : Reply × State) : Prop :=
  match liveItem s key with
  | none => after.1.status = .notFound ∧ ∀ other, look after.2 other = look s other
  | some p =>
    if itemGetCas s (s.heap p) = cas then
      after.1.status = .header ∧
        (if stale then after.2.assoc key = some p ∧ face (after.2.heap p) = staleFace s p ttl
          else look after.2 key = none) ∧
        ∀ other, other ≠ key → look after.2 other = look s other
    else after.1.status = .exists ∧ ∀ other, look after.2 other = look s other

variable {sup : Supply} {s s' : State} {t : Tokens} {key : Key} {p : ItemPtr} {cas : Nat}

/-- What happens to an item whose lookup succeeded. -/
theorem mdeleteItem_hit (live : liveItem s key = some p) (of : MetaFlags)
    (fields : List MetaField) :
    mdeleteItem s key of fields =
      if of.hasCas ∧ itemGetCas s (s.heap p) ≠ 0 then
        ({ status := .exists, fields }, doItemRemove (refcountIncr s p) p)
      else if of.setStale then
        ({ status := .header, fields, skip := of.noReply },
          doItemRemove (markStale (refcountIncr s p) p
            (if of.newTtl then some of.exptime else none)) p)
      else
        ({ status := .header, fields, skip := of.noReply },
          doItemRemove (doItemUnlink (refcountIncr s p) p) p) := by
  rw [mdeleteItem, doItemGet_of_live live]
  have same : itemGetCas (refcountIncr s p) ((refcountIncr s p).heap p) =
      itemGetCas s (s.heap p) := by
    rw [refcountIncr, State.modify_heap_self]
    rfl
  simp only [same]

/-- The line is read as it should be. -/
theorem processMdeleteCommand_eq (line : GuardedDelete sup t cas) :
    ∃ (of : MetaFlags) (fields : List MetaField),
      processMdeleteCommand sup s t =
        mdeleteItem s (lineKey sup (t.word 1) (flagTokens t)) of fields ∧
      of.hasCas = true ∧ of.setStale = (flagOf 73 (flagTokens t)).isSome ∧
      (if of.newTtl then some of.exptime else none) =
        lineTtl sup s.currentTime (flagTokens t) := by
  obtain ⟨number, mem, _⟩ := line.guard
  have accepted := line.accepted
  have guarded : flagOf 67 (flagTokens t) = some _ := flagOf_of_mem accepted.nodup mem rfl
  refine ⟨(linePreparse sup s.currentTime (t.word 1) {} (flagTokens t)).flags,
    (flagTokens t).filterMap (echo (lineKey sup (t.word 1) (flagTokens t))), ?_, ?_, ?_, ?_⟩
  · rw [processMdeleteCommand, if_neg line.words, if_neg line.short, if_neg line.few,
      preparse_of_accepted accepted _ rfl]
    simp only [line.fits, Bool.false_eq_true, if_false]
    rw [linePreparse_key accepted]
  · rw [(linePreparse_cas accepted _ ⟨rfl, rfl⟩).1, guarded]
    rfl
  · exact linePreparse_setStale accepted _ rfl
  · have start : ({} : MetaFlags).newTtl = false ∧ ({} : MetaFlags).exptime = 0 := ⟨rfl, rfl⟩
    obtain ⟨newTtl, exptime⟩ := linePreparse_ttl accepted s.currentTime start
    rw [newTtl, exptime]
    cases lineTtl sup s.currentTime (flagTokens t) <;> rfl

/-- A refusal changes nothing. -/
theorem look_of_refused (s : State) (p : ItemPtr) (other : Key) :
    look (doItemRemove (refcountIncr s p) p) other = look s other :=
  ((Quiet.refcountIncr s p).trans (Quiet.doItemRemove _ p)).look other

section

variable (table : WellLinked s) (here : s.assoc key = some p)

include table here

theorem marked (ttl : Option Nat) : let s' := doItemRemove (markStale (refcountIncr s p) p ttl) p
    s'.assoc key = some p ∧ face (s'.heap p) = staleFace s p ttl ∧
      ∀ other, other ≠ key → look s' other = look s other := by
  refine ⟨?_, ?_, fun other ne => ?_⟩
  · cases ttl <;> exact here
  · cases on : s.settings.useCas <;> cases ttl <;>
      simp [markStale, setExptime, doItemRemove, refcountIncr, State.modify, face, staleFace,
        itemSetCas, on]
  · refine look_of_same (by cases ttl <;> exact ⟨rfl, rfl, rfl, rfl⟩) (by cases ttl <;> rfl) ?_
    intro q there
    have ne : q ≠ p := fun same => not_others_of_here table here ⟨other, ne, same ▸ there⟩
    cases ttl <;> simp [markStale, setExptime, doItemRemove, refcountIncr, State.modify, ne]

theorem deleted : let s' := doItemRemove (doItemUnlink (refcountIncr s p) p) p
    look s' key = none ∧ ∀ other, other ≠ key → look s' other = look s other := by
  have linked : ((refcountIncr s p).heap p).linked = true := by
    simpa [refcountIncr] using table.linked key p here
  have sameKey : ((refcountIncr s p).heap p).key = key := by
    simpa [refcountIncr] using table.key key p here
  have free := not_others_of_here table here
  have spares : Spares (Others s key) key s (doItemUnlink (refcountIncr s p) p) :=
    .trans (.modify free _) (.doItemUnlink free sameKey)
  refine ⟨?_, fun other ne => (spares.trans (.doItemRemove free)).look ne⟩
  rw [doItemUnlink, if_pos linked, sameKey]
  simp [look, liveItem, doItemRemove, State.modify]

end

/-- The unique protects the item exactly if it is zero where the item's is, and only there. -/
theorem guard_honoured_iff (orderly : Orderly s) (line : GuardedDelete sup t cas) :
    Honoured s (lineKey sup (t.word 1) (flagTokens t)) cas (flagOf 73 (flagTokens t)).isSome
        (lineTtl sup s.currentTime (flagTokens t)) (processMdeleteCommand sup s t) ↔
      ∀ p, liveItem s (lineKey sup (t.word 1) (flagTokens t)) = some p →
        (itemGetCas s (s.heap p) = cas ↔ itemGetCas s (s.heap p) = 0) := by
  obtain ⟨of, fields, ran, hasCas, setStale, ttl⟩ := processMdeleteCommand_eq (s := s) line
  generalize lineKey sup (t.word 1) (flagTokens t) = key at ran ⊢
  rw [ran, Honoured, ← setStale, ← ttl]
  cases live : liveItem s key with
  | none =>
    obtain ⟨heap, assoc, missed⟩ := doItemGet_of_missed live false
    have quiet := Quiet.doItemGet orderly key false
    rw [missed] at quiet
    simp [mdeleteItem, missed, quiet.look]
  | some p =>
    have here := (liveItem_eq_some.mp live).1
    have mark := marked orderly.linked here (if of.newTtl then some of.exptime else none)
    have delete := deleted orderly.linked here
    simp only [mdeleteItem_hit live, hasCas, true_and, Option.some.injEq, forall_eq']
    by_cases zero : itemGetCas s (s.heap p) = 0
    · -- The item is touched, which is right if the request said zero.
      rw [if_neg (not_not_intro zero), zero]
      by_cases same : 0 = cas
      · cases of.setStale with
        | true => simpa [same, and_assoc] using mark
        | false => simpa [same] using delete
      · cases of.setStale <;> simp [same]
    · -- The item is left alone, which is right unless the request said so.
      rw [if_pos zero]
      by_cases same : itemGetCas s (s.heap p) = cas
      · simp [same, same ▸ zero]
      · simpa [same, zero] using look_of_refused s p

/-- `md k C0` in a store whose item has the unique 1. -/
theorem guard_honoured_zero : let sup : Supply := ⟨0, fun _ _ => none, id⟩
    let s := single
      { noItem with
        key := [107], linked := true, refcount := 1, cas := 1, data := [49, 13, 10] }
    let t := tokenizeCommand (text "md k C0")
    liveItem s [107] = some 0 ∧
      Honoured s (lineKey sup (t.word 1) (flagTokens t)) 0 (flagOf 73 (flagTokens t)).isSome
        (lineTtl sup s.currentTime (flagTokens t)) (processMdeleteCommand sup s t) := by
  intro sup s t
  have live : liveItem s (lineKey sup (t.word 1) (flagTokens t)) = some 0 := by decide +kernel
  have line : GuardedDelete sup t 0 :=
    ⟨⟨by decide, by decide, by decide, by decide, by decide, by decide⟩, by decide,
      text "0", by decide, by decide +kernel⟩
  refine ⟨live, (guard_honoured_iff (Orderly.single rfl rfl) line).mpr ?_⟩
  intro p found
  cases live.symm.trans found
  decide +kernel

/-- `md k C1` in a store whose item has the unique 1 is refused. -/
theorem matching_unique_refused : let sup : Supply := ⟨0, fun _ _ => none, id⟩
    let s := single
      { noItem with
        key := [107], linked := true, refcount := 1, cas := 1, data := [49, 13, 10] }
    let after := processMdeleteCommand sup s (tokenizeCommand (text "md k C1"))
    liveItem s [107] = some 0 ∧ itemGetCas s (s.heap 0) = 1 ∧ after.1.status = .exists ∧
      (look after.2 [107]).isSome ∧ ¬Honoured s [107] 1 false none after := by
  intro sup s after
  have live : liveItem s [107] = some 0 := by decide +kernel
  have cas : itemGetCas s (s.heap 0) = 1 := by decide +kernel
  have status : after.1.status = .exists := by decide +kernel
  refine ⟨live, cas, status, by decide +kernel, fun honoured => ?_⟩
  rw [Honoured, live] at honoured
  simp only [cas, if_true, status] at honoured
  cases honoured.1

end Kvsev.Meta
