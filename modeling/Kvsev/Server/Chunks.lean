import Kvsev.Linked.Links
import Kvsev.Server.Item
import Mathlib.Data.List.Perm.Subperm

/-!
# Chains of chunks

A large value is spread over chunks, which are linked with each other and point to the
header of their item. A reader finds the value along the pointers. The slab mover puts
another chunk in the place of one, or another header, and makes the neighbours point to
it.
-/

namespace Kvsev.Server

open Function Memory

/-- The chunk in the header of an item, `ITEM_schunk`, or one of its own. -/
inductive Node where
  | first (p : ItemPtr)
  | part (c : Nat)
  deriving DecidableEq, Repr

/-- `item_chunk`, without its pointers to other chunks. -/
structure Chunk where
  head : ItemPtr
  used : Nat
  data : List UInt8

def Chunk.bytes (ch : Chunk) : List UInt8 := ch.data.take ch.used

/-- The chunks of all items. There is memory for so many besides those in the headers. -/
structure Chunks where
  links : Linked.Links Node
  chunk : Node → Chunk
  count : Nat

namespace Chunks

/-- What a reader finds from a chunk on, in so many chunks at most. A chunk may be empty, as those
are that `append` and `prepend` leave behind. -/
def readFrom (m : Chunks) : Nat → Option Node → List UInt8
  | fuel + 1, some n => (m.chunk n).bytes ++ m.readFrom fuel (m.links.next n)
  | _, _ => []

/-- `memcpy(nch, ch, ch->used + sizeof(item_chunk))`, as far as it is not about pointers. -/
def copyUsed (ch nch : Chunk) : Chunk :=
  { ch with data := ch.data.take ch.used ++ nch.data.drop ch.used }

/-- The chunk `nch` takes the place of `ch`. -/
def movePart (m : Chunks) (ch nch : Node) : Exec Chunks :=
  match m.links.prev ch with
  | none => .error .invalidAccess
  | some before =>
    let links := (m.links.setNext before (some nch)).setPrevOf (m.links.next ch) (some nch)
    .ok
      { m with
        links := (links.setNext nch (links.next ch)).setPrev nch (links.prev ch)
        chunk := update m.chunk nch (copyUsed (m.chunk ch) (m.chunk nch)) }

/-- The loop that walks the chunks and makes them point to the new header. -/
def repoint (m : Chunks) (new : ItemPtr) : Nat → Option Node → Chunks
  | fuel + 1, some n =>
    repoint { m with chunk := update m.chunk n { m.chunk n with head := new } } new fuel
      (m.links.next n)
  | _, _ => m

/-- The header `p` was copied to `new`, with the chunk in it. -/
def moveHeader (m : Chunks) (p new : ItemPtr) : Exec Chunks :=
  let links := (m.links.setNext (.first new) (m.links.next (.first p))).setPrev (.first new)
    (m.links.prev (.first p))
  match links.next (.first new) with
  | none => .error .invalidAccess
  | some n =>
    .ok (repoint
      { m with
        links := links.setPrev n (some (.first new))
        chunk := update m.chunk (.first new) (m.chunk (.first p)) }
      new (m.count + 1) (some (.first new)))

variable {m : Chunks} {p new : ItemPtr} {cs : List Nat} {xs : List Node} {n : Node} {fuel : Nat}

/-- What the chunks of a list hold together. -/
def bytes (m : Chunks) (xs : List Node) : List UInt8 := xs.flatMap fun n => (m.chunk n).bytes

theorem readFrom_seg {before : Option Node} (seg : m.links.Seg before xs none)
    (enough : xs.length ≤ fuel) : m.readFrom fuel xs.head? = m.bytes xs := by
  induction xs generalizing before fuel with
  | nil => cases fuel <;> rfl
  | cons n xs ih =>
    obtain ⟨fuel, rfl⟩ : ∃ k, fuel = k + 1 := ⟨fuel - 1, by simp at enough; omega⟩
    obtain ⟨-, after, rest⟩ := seg
    rw [Option.or_none] at after
    rw [List.head?_cons, readFrom, after, ih rest (by simpa using enough)]
    rfl

theorem bytes_congr {m' : Chunks} {ys : List Node}
    (same : ys.map (fun n => (m'.chunk n).bytes) = xs.map fun n => (m.chunk n).bytes) :
    m'.bytes ys = m.bytes xs := by
  rw [bytes, bytes, List.flatMap_def, List.flatMap_def, same]

/-- The chunks of an item. -/
def chain (p : ItemPtr) (cs : List Nat) : List Node := .first p :: cs.map .part

/-- The chunks `cs` make up the item `p`, together with the one in its header. -/
structure Chained (m : Chunks) (p : ItemPtr) (cs : List Nat) : Prop where
  seg : m.links.Seg none (chain p cs) none
  nodup : cs.Nodup
  more : cs ≠ []
  heads : ∀ n ∈ chain p cs, (m.chunk n).head = p
  fits : ∀ n ∈ chain p cs, (m.chunk n).used ≤ (m.chunk n).data.length
  inside : ∀ c ∈ cs, c < m.count

theorem nodup_chain (nodup : cs.Nodup) (p : ItemPtr) : (chain p cs).Nodup := by
  refine List.nodup_cons.mpr ⟨?_, nodup.map fun _ _ => Node.part.inj⟩
  simp

/-- The walks end before they have seen all memory. -/
theorem Chained.short (chained : m.Chained p cs) : (chain p cs).length ≤ m.count + 1 := by
  have subset : cs ⊆ List.range m.count := fun c mem => List.mem_range.mpr (chained.inside c mem)
  have few := (chained.nodup.subperm subset).length_le
  simpa [chain] using few

/-- Nothing changes for an item whose chunks are left alone. -/
theorem Chained.frame {m' : Chunks} (chained : m.Chained p cs)
    (links : ∀ n ∈ chain p cs, m'.links.next n = m.links.next n ∧ m'.links.prev n = m.links.prev n)
    (chunk : ∀ n ∈ chain p cs, m'.chunk n = m.chunk n) (count : m'.count = m.count) :
    m'.Chained p cs where
  seg := chained.seg.frame links
  nodup := chained.nodup
  more := chained.more
  heads n mem := by rw [chunk n mem, chained.heads n mem]
  fits n mem := by
    rw [chunk n mem]
    exact chained.fits n mem
  inside c mem := count ▸ chained.inside c mem

/-! ## Chunks -/

theorem copyUsed_bytes {ch nch : Chunk} (fits : ch.used ≤ ch.data.length) :
    (copyUsed ch nch).bytes = ch.bytes := by
  have length : (ch.data.take ch.used).length = ch.used := by
    rw [List.length_take]
    omega
  simp only [copyUsed, Chunk.bytes]
  rw [List.take_append_of_le_length (by omega), List.take_take, Nat.min_self]

/-- How much a chunk holds, and what. -/
def piece (m : Chunks) (n : Node) : Nat × List UInt8 := ((m.chunk n).used, (m.chunk n).bytes)

theorem fits_iff : (m.chunk n).used ≤ (m.chunk n).data.length ↔
    (m.piece n).2.length = (m.piece n).1 := by
  simp only [piece, Chunk.bytes, List.length_take]
  omega

theorem Chained.of_same {m' : Chunks} {q : ItemPtr} {ds : List Nat} (chained : m.Chained p cs)
    (seg : m'.links.Seg none (chain q ds) none) (nodup : ds.Nodup)
    (heads : ∀ n ∈ chain q ds, (m'.chunk n).head = q) (inside : ∀ c ∈ ds, c < m'.count)
    (first : m'.piece (.first q) = m.piece (.first p))
    (parts : ds.map (fun c => m'.piece (.part c)) = cs.map fun c => m.piece (.part c)) :
    m'.Chained q ds ∧ m'.bytes (chain q ds) = m.bytes (chain p cs) := by
  have found {d : Nat} (mem : d ∈ ds) : ∃ c ∈ cs, m.piece (.part c) = m'.piece (.part d) := by
    have there : m'.piece (.part d) ∈ ds.map fun c => m'.piece (.part c) :=
      List.mem_map_of_mem mem
    rw [parts] at there
    exact List.mem_map.mp there
  refine ⟨⟨seg, nodup, ?_, heads, ?_, inside⟩, ?_⟩
  · rintro rfl
    exact chained.more (List.map_eq_nil_iff.mp parts.symm)
  · intro n mem
    rw [fits_iff]
    obtain rfl | mem := List.mem_cons.mp mem
    · rw [first, ← fits_iff]
      exact chained.fits _ List.mem_cons_self
    · obtain ⟨d, inside, rfl⟩ := List.mem_map.mp mem
      obtain ⟨c, there, same⟩ := found inside
      rw [← same, ← fits_iff]
      exact chained.fits _ (by simp [chain, there])
  · refine bytes_congr ?_
    have second := congrArg (List.map Prod.snd) parts
    simp only [List.map_map] at second
    simp only [chain, List.map_cons, List.map_map, List.cons.injEq]
    exact ⟨congrArg Prod.snd first, second⟩

/-- What is left alone by a change to the chunks in `xs`. -/
structure Frame (xs : List Node) (m m' : Chunks) : Prop where
  links : ∀ n, n ∉ xs → m'.links.next n = m.links.next n ∧ m'.links.prev n = m.links.prev n
  chunk : ∀ n, n ∉ xs → m'.chunk n = m.chunk n
  count : m'.count = m.count

theorem Frame.of_replace {ys zs : List Node} {a b : Node} {m' : Chunks}
    (seg : m.links.Seg none (ys ++ a :: zs) none) (links : m'.links = m.links.replace a b)
    (chunk : ∀ n, n ∉ b :: (ys ++ a :: zs) → m'.chunk n = m.chunk n)
    (count : m'.count = m.count) : Frame (b :: (ys ++ a :: zs)) m m' := by
  obtain ⟨-, prev, next, -⟩ := Linked.Links.seg_middle.mp seg
  rw [Option.or_none] at prev next
  refine ⟨fun n outside => ?_, chunk, count⟩
  simp only [List.mem_cons, List.mem_append, not_or] at outside
  rw [links]
  refine Linked.Links.replace_frame outside.1 ?_ ?_
  · rw [prev]
    exact fun last => outside.2.1 (List.mem_of_getLast? last)
  · rw [next]
    exact fun first => outside.2.2.2 (List.mem_of_head? first)

/-! ## A chunk is moved -/

theorem movePart_ok {ys zs : List Node} {ch : Node} (nch : Node)
    (seg : m.links.Seg none (ys ++ ch :: zs) none) (nodup : (ys ++ ch :: zs).Nodup)
    (before : ys ≠ []) :
    ∃ m', m.movePart ch nch = .ok m' ∧ m'.count = m.count ∧
      m'.links = m.links.replace ch nch ∧ m'.chunk nch = copyUsed (m.chunk ch) (m.chunk nch) ∧
      ∀ n, n ≠ nch → m'.chunk n = m.chunk n := by
  obtain ⟨-, prev, next, -⟩ := Linked.Links.seg_middle.mp seg
  rw [Option.or_none] at prev next
  have last := List.getLast?_eq_some_getLast before
  have apart := (List.nodup_cons.mp (List.nodup_middle.mp nodup)).1
  have other : ys.getLast before ≠ ch := fun same =>
    apart (List.mem_append_left zs (same ▸ List.getLast_mem before))
  have notSelf : m.links.next ch ≠ some ch := by
    rw [next]
    exact fun first => apart (List.mem_append_right ys (List.mem_of_head? first))
  have nextSame : (m.links.setNext (ys.getLast before) (some nch)).next ch = m.links.next ch :=
    update_of_ne other.symm _ _
  have prevSame : (m.links.setNext (ys.getLast before) (some nch)).prev ch = m.links.prev ch := rfl
  unfold movePart
  rw [prev, last]
  refine ⟨_, rfl, rfl, ?_, update_self _ _ _, fun n other => update_of_ne other _ _⟩
  simp only [Linked.Links.replace, prev, last, Linked.Links.setNextOf]
  rw [Linked.Links.setPrevOf_next, nextSame, Linked.Links.setPrevOf_prev_of_ne notSelf, prevSame,
    prev, last]

theorem chain_append (p : ItemPtr) (as bs : List Nat) (c : Nat) :
    chain p (as ++ c :: bs) = chain p as ++ .part c :: bs.map .part := by
  simp [chain]

theorem part_mem_chain {c : Nat} : Node.part c ∈ chain p cs ↔ c ∈ cs := by
  simp [chain]

/-- A chunk of an item is moved. -/
theorem Chained.movePart {as bs : List Nat} {c nc : Nat} (chained : m.Chained p (as ++ c :: bs))
    (fresh : nc ∉ as ++ c :: bs) (room : nc < m.count) :
    ∃ m', m.movePart (.part c) (.part nc) = .ok m' ∧ m'.Chained p (as ++ nc :: bs) ∧
      m'.bytes (chain p (as ++ nc :: bs)) = m.bytes (chain p (as ++ c :: bs)) ∧
      Frame (.part nc :: chain p (as ++ c :: bs)) m m' := by
  have seg := chained.seg
  have nodup := nodup_chain chained.nodup p
  have new : Node.part nc ∉ chain p (as ++ c :: bs) := fun mem => fresh (part_mem_chain.mp mem)
  have fits := chained.fits (.part c) (part_mem_chain.mpr (by simp))
  have away {d : Nat} (mem : d ∈ as ++ c :: bs) : Node.part d ≠ .part nc :=
    fun same => fresh (Node.part.inj same ▸ mem)
  rw [chain_append] at seg nodup new
  obtain ⟨m', ran, count, links, here, others⟩ := movePart_ok (.part nc) seg nodup (by simp [chain])
  have same : m'.piece (.part nc) = m.piece (.part c) := by
    rw [piece, here, copyUsed_bytes fits]
    rfl
  have kept (ds : List Nat) (inside : ∀ d ∈ ds, d ∈ as ++ c :: bs) :
      ds.map (fun d => m'.piece (.part d)) = ds.map fun d => m.piece (.part d) :=
    List.map_congr_left fun d mem => by rw [piece, others _ (away (inside d mem)), piece]
  obtain ⟨whole, bytes⟩ : m'.Chained p (as ++ nc :: bs) ∧
      m'.bytes (chain p (as ++ nc :: bs)) = m.bytes (chain p (as ++ c :: bs)) := by
    refine chained.of_same ?_ ?_ ?_ (fun d mem => ?_) ?_ ?_
    · rw [chain_append, links]
      exact seg.replace nodup new
    · have once := List.nodup_middle.mp chained.nodup
      refine List.nodup_middle.mpr (List.nodup_cons.mpr ⟨?_, (List.nodup_cons.mp once).2⟩)
      exact fun mem => fresh (by simp only [List.mem_append, List.mem_cons] at mem ⊢; tauto)
    · intro n mem
      by_cases moved : n = .part nc
      · rw [moved, here]
        exact chained.heads _ (part_mem_chain.mpr (by simp))
      · rw [others n moved]
        refine chained.heads n ?_
        rw [chain_append] at mem ⊢
        simp only [List.mem_append, List.mem_cons, moved, false_or] at mem ⊢
        exact mem.imp_right .inr
    · rw [count]
      by_cases moved : d = nc
      · exact moved ▸ room
      · refine chained.inside d ?_
        simp only [List.mem_append, List.mem_cons, moved, false_or] at mem ⊢
        exact mem.imp_right .inr
    · rw [piece, others (.first p) nofun, piece]
    · rw [List.map_append, List.map_append, List.map_cons, List.map_cons, same,
        kept as fun d mem => by simp [mem], kept bs fun d mem => by simp [mem]]
  refine ⟨m', ran, whole, bytes, ?_⟩
  rw [chain_append]
  exact .of_replace seg links
    (fun n outside => others n fun moved => outside (by simp [moved])) count

/-! ## A header is moved -/

theorem repoint_ok (new : ItemPtr) {before : Option Node} (seg : m.links.Seg before xs none)
    (nodup : xs.Nodup) (enough : xs.length ≤ fuel) :
    (m.repoint new fuel xs.head?).links = m.links ∧
      (∀ n ∈ xs, (m.repoint new fuel xs.head?).chunk n = { m.chunk n with head := new }) ∧
      (∀ n, n ∉ xs → (m.repoint new fuel xs.head?).chunk n = m.chunk n) ∧
      (m.repoint new fuel xs.head?).count = m.count := by
  induction xs generalizing m before fuel with
  | nil =>
    have none : m.repoint new fuel none = m := by cases fuel <;> rfl
    rw [List.head?_nil, none]
    exact ⟨rfl, nofun, fun _ _ => rfl, rfl⟩
  | cons a xs ih =>
    obtain ⟨fuel, rfl⟩ : ∃ k, fuel = k + 1 := ⟨fuel - 1, by simp at enough; omega⟩
    obtain ⟨away, nodup⟩ := List.nodup_cons.mp nodup
    obtain ⟨-, after, rest⟩ := seg
    rw [Option.or_none] at after
    rw [List.head?_cons, repoint, after]
    obtain ⟨links, inside, outside, count⟩ := ih
      (m := { m with chunk := update m.chunk a { m.chunk a with head := new } })
      rest nodup (by simpa using enough)
    refine ⟨links, fun n mem => ?_, fun n none => ?_, count⟩
    · obtain rfl | mem := List.mem_cons.mp mem
      · rw [outside n away]
        exact update_self _ _ _
      · rw [inside n mem]
        have other : n ≠ a := fun same => away (same ▸ mem)
        simp only [update_of_ne other]
    · simp only [List.mem_cons, not_or] at none
      rw [outside n none.2]
      exact update_of_ne none.1 _ _

theorem moveHeader_ok (chained : m.Chained p cs) (new : ItemPtr) :
    ∃ m' : Chunks, m.moveHeader p new =
        .ok (m'.repoint new (m.count + 1) (chain new cs).head?) ∧ m'.count = m.count ∧
      m'.links = m.links.replace (.first p) (.first new) ∧
      m'.chunk (.first new) = m.chunk (.first p) ∧
      ∀ n, n ≠ .first new → m'.chunk n = m.chunk n := by
  obtain ⟨c, ds, rfl⟩ := List.exists_cons_of_ne_nil chained.more
  obtain ⟨prev, next, -⟩ := chained.seg
  have next : m.links.next (.first p) = some (.part c) := next
  have found : ((m.links.setNext (.first new) (m.links.next (.first p))).setPrev (.first new)
      (m.links.prev (.first p))).next (.first new) = some (.part c) := by
    rw [← next]
    exact update_self _ _ _
  unfold moveHeader
  simp only [found]
  refine ⟨_, rfl, rfl, ?_, update_self _ _ _, fun n other => update_of_ne other _ _⟩
  -- The order of the writes does not matter.
  have apart : Node.first new ≠ .part c := nofun
  simp only [Linked.Links.replace, Linked.Links.setPrev, Linked.Links.setNext, prev, next,
    Linked.Links.setNextOf, Linked.Links.setPrevOf, update_comm apart]

/-- The header of an item is moved. -/
theorem Chained.moveHeader (chained : m.Chained p cs) (other : new ≠ p) :
    ∃ m', m.moveHeader p new = .ok m' ∧ m'.Chained new cs ∧
      m'.bytes (chain new cs) = m.bytes (chain p cs) ∧
      Frame (.first new :: chain p cs) m m' := by
  have seg : m.links.Seg none ([] ++ chain p cs) none := chained.seg
  have fresh : Node.first new ∉ [] ++ chain p cs := by
    simp [chain, other]
  obtain ⟨copied, ran, count, links, here, others⟩ := moveHeader_ok chained new
  have moved : copied.links.Seg none (chain new cs) none := by
    rw [links]
    exact seg.replace (nodup_chain chained.nodup p) fresh
  have fuelled : (chain new cs).length ≤ m.count + 1 := by simpa [chain] using chained.short
  obtain ⟨same, inside, outside, count'⟩ :=
    repoint_ok new moved (nodup_chain chained.nodup new) fuelled
  generalize copied.repoint new (m.count + 1) (chain new cs).head? = m'
    at ran same inside outside count'
  have whole : m'.Chained new cs ∧ m'.bytes (chain new cs) = m.bytes (chain p cs) := by
    refine chained.of_same ?_ chained.nodup ?_ (count' ▸ count ▸ chained.inside) ?_ ?_
    · rw [same]
      exact moved
    · intro n mem
      rw [inside n mem]
    · rw [piece, inside _ List.mem_cons_self, here]
      rfl
    · refine List.map_congr_left fun d mem => ?_
      rw [piece, inside _ (part_mem_chain.mpr mem), others (.part d) nofun]
      rfl
  refine ⟨m', ran, whole.1, whole.2, .of_replace seg (same.trans links) (fun n none => ?_)
    (count'.trans count)⟩
  simp only [List.nil_append, List.mem_cons, not_or] at none
  rw [outside n ?_, others n none.1]
  simp only [chain, List.mem_cons, not_or]
  exact ⟨none.1, none.2.2⟩

end Chunks

end Kvsev.Server
