import Mathlib.Data.List.Infix
import Mathlib.Data.List.Nodup
import Mathlib.Logic.Function.Basic

/-!
# Statistics by prefix

Gets, sets and deletes are counted under the part of the key before the delimiter. The
entries are chained in a hash table, and `stats_prefix_find` compares only as many bytes
as the key's prefix has. So it stops at any entry of the chain that extends the prefix,
which is the entry of the prefix itself as long as longer prefixes of its bucket come
later.
-/

namespace Kvsev.Stats

open Function

/-- `PREFIX_STATS`; the chains are lists. -/
@[ext] structure PrefixStats where
  prefixText : List UInt8
  numGets : Nat := 0
  numSets : Nat := 0
  numDeletes : Nat := 0
  numHits : Nat := 0
deriving DecidableEq

structure State where
  prefixStats : Nat → List PrefixStats := fun _ => []
  numPrefixes : Nat := 0
  totalPrefixSize : Nat := 0

/-- What `stats_prefix_dump` prints, in its order. -/
def State.lines (s : State) : List PrefixStats := (List.range 256).flatMap s.prefixStats

/-- The entry at a place, a bucket and a position in its chain, is changed. -/
def State.modify (s : State) (place : Nat × Nat) (f : PrefixStats → PrefixStats) : State :=
  { s with prefixStats :=
      update s.prefixStats place.1 ((s.prefixStats place.1).modify place.2 f) }

/-- The loop that looks for the delimiter. -/
def prefixLength (delimiter : UInt8) : List UInt8 → Option Nat
  | [] => none
  | b :: key =>
    if b = 0 then none
    else if b = delimiter then some 0
    else (prefixLength delimiter key).map (· + 1)

/-- Whether `strncmp` returns zero. -/
def strncmpZero : Nat → List UInt8 → List UInt8 → Bool
  | 0, _, _ => true
  | n + 1, a :: s, b :: t => a == b && (a == 0 || strncmpZero n s t)
  | _ + 1, _, _ => false

def bucket (hash : List UInt8 → UInt32) (text : List UInt8) : Nat := (hash text).toNat % 256

/-- What a call records. -/
inductive Kind where
  | get (isHit : Bool)
  | set
  | delete
deriving DecidableEq

structure Op where
  kind : Kind
  key : List UInt8

/-- What the call does to the entry that is found. -/
def Kind.record : Kind → PrefixStats → PrefixStats
  | get isHit, pfs =>
    { pfs with
      numGets := pfs.numGets + 1, numHits := if isHit then pfs.numHits + 1 else pfs.numHits }
  | set, pfs => { pfs with numSets := pfs.numSets + 1 }
  | delete, pfs => { pfs with numDeletes := pfs.numDeletes + 1 }

section
variable (hash : List UInt8 → UInt32) (delimiter : UInt8)

/-- `stats_prefix_find`, with the place it returns a pointer to. -/
def statsPrefixFind (s : State) (key : List UInt8) : Option (Nat × Nat) × State :=
  match prefixLength delimiter key with
  | none => (none, s)
  | some length =>
    let hashval := bucket hash (key.take length)
    match (s.prefixStats hashval).findIdx? fun pfs =>
        strncmpZero length (pfs.prefixText ++ [0]) key with
    | some i => (some (hashval, i), s)
    | none =>
      (some (hashval, 0),
        { prefixStats := update s.prefixStats hashval
            ({ prefixText := key.take length } :: s.prefixStats hashval)
          numPrefixes := s.numPrefixes + 1
          totalPrefixSize := s.totalPrefixSize + length })

/-- `stats_prefix_record_get`, `stats_prefix_record_set` and `stats_prefix_record_delete`. -/
def statsPrefixRecord (s : State) (op : Op) : State :=
  match statsPrefixFind hash delimiter s op.key with
  | (none, s) => s
  | (some place, s) => s.modify place op.kind.record

def record (ops : List Op) : State := ops.foldl (statsPrefixRecord hash delimiter) {}

/-- The part of a key before its first delimiter. -/
def stem (key : List UInt8) : Option (List UInt8) :=
  if delimiter ∈ key then some (key.takeWhile (· ≠ delimiter)) else none

/-- The entry a prefix should have. -/
def tally (ops : List Op) (p : List UInt8) : PrefixStats :=
  let mine := (ops.filter fun op => stem delimiter op.key = some p).map Op.kind
  { prefixText := p
    numGets := mine.count (.get true) + mine.count (.get false)
    numSets := mine.count .set
    numDeletes := mine.count .delete
    numHits := mine.count (.get true) }

/-- Some operation concerns the prefix. -/
def Seen (ops : List Op) (p : List UInt8) : Prop := ∃ op ∈ ops, stem delimiter op.key = some p

/-- Every line of the report has the counters of its prefix, and no prefix is left out. -/
structure Exact (s : State) (ops : List Op) : Prop where
  lines : ∀ pfs ∈ s.lines, pfs = tally delimiter ops pfs.prefixText
  listed : ∀ p, Seen delimiter ops p → ∃ pfs ∈ s.lines, pfs.prefixText = p

/-- The delimiter is found in the key if it is there: no NUL comes first. -/
def Readable (key : List UInt8) : Prop :=
  ∀ p, stem delimiter key = some p → delimiter ≠ 0 ∧ 0 ∉ p

/-- A prefix does not come after a longer one of its bucket. -/
def Apart (earlier later : Op) : Prop :=
  ∀ q p, stem delimiter earlier.key = some q → stem delimiter later.key = some p →
    bucket hash p = bucket hash q → p <+: q → p = q

/-- A chain has the counters of the prefixes of its bucket, none before one it begins. -/
structure Listed (ops : List Op) (b : Nat) (texts : List (List UInt8))
    (chain : List PrefixStats) : Prop where
  chain : chain = texts.map (tally delimiter ops)
  mem : ∀ p, p ∈ texts ↔ Seen delimiter ops p ∧ bucket hash p = b
  ordered : texts.Pairwise fun p q => ¬ p <+: q

/-- What holds after operations all of which are counted as they should be. -/
structure Inv (s : State) (ops : List Op) : Prop where
  readable : ∀ op ∈ ops, Readable delimiter op.key
  listed : ∀ b, ∃ texts, Listed hash delimiter ops b texts (s.prefixStats b)

end

variable {hash : List UInt8 → UInt32} {delimiter : UInt8} {s : State} {ops : List Op} {op : Op}
  {b : Nat} {p key : List UInt8} {texts : List (List UInt8)}

theorem mem_lines (hash : List UInt8 → UInt32) (p : List UInt8) {pfs : PrefixStats}
    (mem : pfs ∈ s.prefixStats (bucket hash p)) : pfs ∈ s.lines :=
  List.mem_flatMap.mpr ⟨_, List.mem_range.mpr (Nat.mod_lt _ (by decide)), mem⟩

theorem stem_cons (b : UInt8) (key : List UInt8) : stem delimiter (b :: key) =
    if b = delimiter then some [] else (stem delimiter key).map (b :: ·) := by
  by_cases here : b = delimiter
  · simp [stem, here]
  · by_cases later : delimiter ∈ key
    · simp [stem, here, later]
    · simp [stem, here, later, Ne.symm here]

theorem stem_append (found : stem delimiter key = some p) : ∃ rest, key = p ++ rest := by
  rw [stem, Option.ite_none_right_eq_some, Option.some_inj] at found
  obtain ⟨-, rfl⟩ := found
  exact ⟨_, List.takeWhile_append_dropWhile.symm⟩

/-- The loop finds the delimiter if no NUL comes first. -/
theorem prefixLength_eq (key : List UInt8) : prefixLength delimiter key =
    ((stem delimiter key).filter fun p => delimiter ≠ 0 ∧ 0 ∉ p).map List.length := by
  induction key with
  | nil => rfl
  | cons b key ih =>
    rw [prefixLength, stem_cons, ih]
    by_cases here : b = delimiter
    · by_cases zero : b = 0 <;> simp [← here, zero, Option.filter]
    · by_cases zero : 0 = b <;> cases stem delimiter key <;>
        simp [here, zero, Ne.symm, Option.filter]

/-- Comparing as many bytes as the key's prefix has means: the entry extends the prefix. -/
theorem strncmpZero_iff {text : List UInt8} (plain : 0 ∉ p) (plainText : 0 ∉ text)
    (rest : List UInt8) :
    strncmpZero p.length (text ++ [0]) (p ++ rest) = true ↔ p <+: text := by
  induction p generalizing text with
  | nil => simp [strncmpZero]
  | cons b p ih =>
    rw [List.mem_cons, not_or] at plain
    cases text with
    | nil => simp [strncmpZero, plain.1]
    | cons a text =>
      rw [List.mem_cons, not_or] at plainText
      simp [strncmpZero, Ne.symm plainText.1, ih plain.2 plainText.2, eq_comm (a := a)]

@[simp] theorem tally_prefixText (ops : List Op) (p : List UInt8) :
    (tally delimiter ops p).prefixText = p := rfl

theorem tally_concat (ops : List Op) (op : Op) (p : List UInt8) :
    tally delimiter (ops ++ [op]) p =
      if stem delimiter op.key = some p then op.kind.record (tally delimiter ops p)
      else tally delimiter ops p := by
  split
  · next here =>
    rcases op with ⟨(_ | _) | _ | _, key⟩ <;> simp_all [tally, Kind.record]
    all_goals omega
  · next other => simp [tally, other]

theorem seen_concat : Seen delimiter (ops ++ [op]) p ↔
    Seen delimiter ops p ∨ stem delimiter op.key = some p := by
  simp [Seen, or_and_right, exists_or]

theorem tally_of_not_seen (unseen : ¬ Seen delimiter ops p) :
    tally delimiter ops p = { prefixText := p } := by
  induction ops using List.reverseRecOn with
  | nil => rfl
  | append_singleton ops op ih =>
    rw [seen_concat, not_or] at unseen
    rw [tally_concat, if_neg unseen.2]
    exact ih unseen.1

theorem Kind.record_ne (kind : Kind) (pfs : PrefixStats) : kind.record pfs ≠ pfs := by
  cases kind <;> simp [Kind.record, PrefixStats.ext_iff]

theorem Kind.record_prefixText (kind : Kind) (pfs : PrefixStats) :
    (kind.record pfs).prefixText = pfs.prefixText := by
  cases kind <;> rfl

/-- Nothing is counted without a delimiter, or when a NUL comes first. -/
theorem record_of_unread
    (unread : ∀ p, stem delimiter op.key = some p → ¬ (delimiter ≠ 0 ∧ 0 ∉ p)) :
    statsPrefixRecord hash delimiter s op = s := by
  have none : prefixLength delimiter op.key = none := by
    rw [prefixLength_eq, Option.map_eq_none_iff, Option.filter_eq_none_iff]
    exact fun p found => by simpa using unread p found
  simp only [statsPrefixRecord, statsPrefixFind, none]

theorem Listed.other {chain : List PrefixStats}
    (listed : Listed hash delimiter ops b texts chain)
    (elsewhere : ∀ p, stem delimiter op.key = some p → bucket hash p ≠ b) :
    Listed hash delimiter (ops ++ [op]) b texts chain := by
  refine ⟨?_, fun q => ?_, listed.ordered⟩
  · rw [listed.chain]
    refine List.map_congr_left fun q mem => ?_
    rw [tally_concat, if_neg fun same => elsewhere q same ((listed.mem q).mp mem).2]
  · rw [listed.mem, seen_concat, or_and_right, or_iff_left]
    exact fun here => elsewhere q here.1 here.2

namespace Inv

theorem exact (inv : Inv hash delimiter s ops) : Exact delimiter s ops where
  lines := by
    intro pfs mem
    obtain ⟨b, -, mem⟩ := List.mem_flatMap.mp mem
    obtain ⟨texts, listed⟩ := inv.listed b
    rw [listed.chain] at mem
    obtain ⟨p, -, rfl⟩ := List.mem_map.mp mem
    rfl
  listed := by
    intro p seen
    obtain ⟨texts, listed⟩ := inv.listed (bucket hash p)
    refine ⟨tally delimiter ops p, mem_lines hash p ?_, rfl⟩
    rw [listed.chain]
    exact List.mem_map_of_mem ((listed.mem p).mpr ⟨seen, rfl⟩)

/-- The lookup stops at the first entry that extends the prefix; without one it adds an entry
in front. -/
theorem record_cases (inv : Inv hash delimiter s ops) (found : stem delimiter op.key = some p)
    (nonzero : delimiter ≠ 0) (plain : 0 ∉ p)
    (listed : Listed hash delimiter ops (bucket hash p) texts (s.prefixStats (bucket hash p))) :
    (∃ i, ∃ lt : i < texts.length, p <+: texts[i] ∧ (∀ j, ∀ lt : j < i, ¬ p <+: texts[j]) ∧
      (statsPrefixRecord hash delimiter s op).prefixStats =
        update s.prefixStats (bucket hash p)
          ((texts.map (tally delimiter ops)).modify i op.kind.record)) ∨
    ((∀ q ∈ texts, ¬ p <+: q) ∧
      (statsPrefixRecord hash delimiter s op).prefixStats =
        update s.prefixStats (bucket hash p)
          (op.kind.record { prefixText := p } :: texts.map (tally delimiter ops))) := by
  obtain ⟨rest, split⟩ := stem_append found
  have length : prefixLength delimiter op.key = some p.length := by
    simp [prefixLength_eq, found, nonzero, plain, Option.filter]
  have stops {q : List UInt8} (mem : q ∈ texts) :
      strncmpZero p.length (q ++ [0]) op.key = true ↔ p <+: q := by
    obtain ⟨⟨earlier, before, stemmed⟩, -⟩ := (listed.mem q).mp mem
    rw [split, strncmpZero_iff plain (inv.readable earlier before q stemmed).2]
  have take : op.key.take p.length = p := by simp [split]
  simp only [statsPrefixRecord, statsPrefixFind, length, take, listed.chain]
  cases first : (texts.map (tally delimiter ops)).findIdx? fun pfs =>
      strncmpZero p.length (pfs.prefixText ++ [0]) op.key with
  | none =>
    refine .inr ⟨fun q mem => ?_, by simp [State.modify]⟩
    rw [← stops mem]
    simpa using List.findIdx?_eq_none_iff.mp first _ (List.mem_map_of_mem mem)
  | some i =>
    obtain ⟨lt, here, before⟩ := List.findIdx?_eq_some_iff_getElem.mp first
    rw [List.length_map] at lt
    refine .inl ⟨i, lt, ?_, fun j less => ?_, by simp [State.modify, listed.chain]⟩
    · rw [← stops (List.getElem_mem lt)]
      simpa using here
    · rw [← stops (List.getElem_mem (less.trans lt))]
      simpa using before j less

/-- An operation that comes after no longer prefix of its bucket. -/
theorem record (inv : Inv hash delimiter s ops) (readable : Readable delimiter op.key)
    (apart : ∀ earlier ∈ ops, Apart hash delimiter earlier op) :
    Inv hash delimiter (statsPrefixRecord hash delimiter s op) (ops ++ [op]) := by
  refine ⟨by simpa [or_imp, forall_and] using ⟨inv.readable, readable⟩, fun b => ?_⟩
  cases found : stem delimiter op.key with
  | none =>
    obtain ⟨texts, listed⟩ := inv.listed b
    rw [record_of_unread (by simp [found])]
    exact ⟨texts, listed.other (by simp [found])⟩
  | some p =>
    obtain ⟨nonzero, plain⟩ := readable p found
    obtain ⟨texts, listed⟩ := inv.listed (bucket hash p)
    have cases_ := inv.record_cases found nonzero plain listed
    by_cases here : b = bucket hash p
    · subst here
      obtain ⟨i, lt, extended, -, state⟩ | ⟨absent, state⟩ := cases_
      · have mem := List.getElem_mem lt
        obtain ⟨⟨earlier, before, stemmed⟩, home⟩ := (listed.mem _).mp mem
        have own := apart earlier before _ p stemmed found home.symm extended
        have nodup : texts.Nodup := listed.ordered.imp <| by
          rintro q _ other rfl
          exact other (List.prefix_refl q)
        rw [state, update_self]
        refine ⟨texts, List.ext_getElem (by simp) fun j _ less => ?_, fun q => ?_, listed.ordered⟩
        · rw [List.length_map] at less
          simp [List.getElem_modify, tally_concat, found, own, nodup.getElem_inj_iff]
        · rw [listed.mem, seen_concat, found, or_and_right, or_iff_left_of_imp]
          rintro ⟨⟨⟩, -⟩
          exact (listed.mem p).mp (own ▸ mem)
      · have absent' : p ∉ texts := fun mem => absent p mem (List.prefix_refl _)
        have unseen : ¬ Seen delimiter ops p := fun seen =>
          absent' ((listed.mem p).mpr ⟨seen, rfl⟩)
        rw [state, update_self]
        refine ⟨p :: texts, ?_, fun q => ?_, List.pairwise_cons.mpr ⟨absent, listed.ordered⟩⟩
        · rw [List.map_cons, tally_concat, if_pos found, tally_of_not_seen unseen]
          refine congrArg _ (List.map_congr_left fun q mem => ?_)
          rw [tally_concat, if_neg]
          rw [found]
          rintro ⟨⟩
          exact absent' mem
        · rw [List.mem_cons, listed.mem, seen_concat, found, Option.some_inj]
          constructor
          · rintro (rfl | ⟨seen, home⟩)
            · exact ⟨.inr rfl, rfl⟩
            · exact ⟨.inl seen, home⟩
          · rintro ⟨seen | rfl, home⟩
            · exact .inr ⟨seen, home⟩
            · exact .inl rfl
    · obtain ⟨texts', listed'⟩ := inv.listed b
      have same : (statsPrefixRecord hash delimiter s op).prefixStats b = s.prefixStats b := by
        obtain ⟨_, _, _, _, state⟩ | ⟨_, state⟩ := cases_ <;>
          rw [state, update_of_ne here]
      refine ⟨texts', same ▸ listed'.other fun q same => ?_⟩
      rw [← Option.some.inj (found.symm.trans same)]
      exact Ne.symm here

/-- An operation after one with a longer prefix of its bucket is counted elsewhere. -/
theorem not_exact (inv : Inv hash delimiter s ops) (found : stem delimiter op.key = some p)
    (nonzero : delimiter ≠ 0) (plain : 0 ∉ p) {q : List UInt8} (seen : Seen delimiter ops q)
    (home : bucket hash p = bucket hash q) (extended : p <+: q) (longer : p ≠ q) :
    ¬ Exact delimiter (statsPrefixRecord hash delimiter s op) (ops ++ [op]) := by
  intro exact
  obtain ⟨texts, listed⟩ := inv.listed (bucket hash p)
  have mem := (listed.mem q).mpr ⟨seen, home.symm⟩
  obtain ⟨i, lt, here, before, state⟩ | ⟨absent, -⟩ :=
    inv.record_cases found nonzero plain listed
  · -- The entry of the longer prefix comes no later than that of the shorter one.
    obtain ⟨j, less, rfl⟩ := List.getElem_of_mem mem
    have other : p ≠ texts[i] := by
      intro own
      obtain lt' | rfl | gt := Nat.lt_trichotomy j i
      · exact before j lt' extended
      · exact longer own
      · exact List.pairwise_iff_getElem.mp listed.ordered i j lt less gt (own ▸ extended)
    have line := exact.lines (op.kind.record (tally delimiter ops texts[i])) <| by
      refine mem_lines hash p ?_
      rw [state, update_self]
      exact List.mem_iff_getElem.mpr ⟨i, by simpa using lt, by simp⟩
    rw [Kind.record_prefixText, tally_concat, found, if_neg] at line
    · exact op.kind.record_ne _ line
    · exact fun same => other (Option.some.inj same)
  · exact absent q mem extended

end Inv

theorem inv_record (readable : ∀ op ∈ ops, Readable delimiter op.key)
    (apart : ops.Pairwise (Apart hash delimiter)) :
    Inv hash delimiter (record hash delimiter ops) ops := by
  induction ops using List.reverseRecOn with
  | nil => exact ⟨by simp, fun b => ⟨[], rfl, by simp [Seen], .nil⟩⟩
  | append_singleton ops op ih =>
    rw [List.pairwise_append] at apart
    rw [record, List.foldl_concat]
    exact (ih (fun op' mem => readable op' (by simp [mem])) apart.1).record
      (readable op (by simp)) fun earlier mem => apart.2.2 earlier mem op (by simp)

/-- The report is exact after each operation if and only if every delimiter is found and no
prefix comes after a longer one of its bucket. -/
theorem prefix_counts_exact_iff (hash : List UInt8 → UInt32) (delimiter : UInt8)
    (ops : List Op) :
    (∀ before, before <+: ops → Exact delimiter (record hash delimiter before) before) ↔
      (∀ op ∈ ops, Readable delimiter op.key) ∧ ops.Pairwise (Apart hash delimiter) := by
  constructor
  · intro exact
    induction ops using List.reverseRecOn with
    | nil => exact ⟨by simp, .nil⟩
    | append_singleton ops op ih =>
      obtain ⟨readable, apart⟩ := ih fun before le => exact before (le.trans (by simp))
      have inv := inv_record readable apart
      have last := exact (ops ++ [op]) (List.prefix_refl _)
      rw [record, List.foldl_concat, ← record] at last
      have readable' : Readable delimiter op.key := by
        intro p found
        by_contra unread
        rw [record_of_unread fun p' found' => by
          rwa [← Option.some.inj (found.symm.trans found')]] at last
        obtain ⟨pfs, mem, rfl⟩ := last.listed p (seen_concat.mpr (.inr found))
        have counted := last.lines pfs mem
        rw [tally_concat, if_pos found, ← inv.exact.lines pfs mem] at counted
        exact op.kind.record_ne pfs counted.symm
      refine ⟨by simpa [or_imp, forall_and] using ⟨readable, readable'⟩, ?_⟩
      rw [List.pairwise_append]
      refine ⟨apart, List.pairwise_singleton .., fun earlier mem later here => ?_⟩
      obtain rfl := List.mem_singleton.mp here
      intro q p stemmed found home extended
      by_contra longer
      obtain ⟨nonzero, plain⟩ := readable' p found
      exact inv.not_exact found nonzero plain ⟨earlier, mem, stemmed⟩ home extended longer last
  · rintro ⟨readable, apart⟩ before le
    exact (inv_record (fun op mem => readable op (le.subset mem))
      (apart.sublist le.sublist)).exact

/-- With `abc:` and `ab:` in one bucket, a get of the second is reported for the first. -/
theorem extension_counted : ¬ Exact 58 (record (fun _ => 0) 58
    [⟨.get false, [97, 98, 99, 58]⟩, ⟨.get false, [97, 98, 58]⟩])
    [⟨.get false, [97, 98, 99, 58]⟩, ⟨.get false, [97, 98, 58]⟩] := by
  intro exact
  have line := exact.lines { prefixText := [97, 98, 99], numGets := 2 } (by decide)
  revert line
  decide

end Kvsev.Stats
