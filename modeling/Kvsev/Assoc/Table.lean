import Kvsev.Memory.Block
import Mathlib.Algebra.Ring.Nat

/-!
# The item hash table

The functions of `assoc.c`. A bucket is the list of the items chained through
`h_next`, from the table entry on. While the table is expanded there are two of
them: buckets of the old table below `expand_bucket` have been moved to the new
one. Every access to a table is checked against its size.

Items are anything with a key. The hash value is an argument, as in the source,
and only the maintenance thread computes it itself.
-/

namespace Kvsev.Assoc

open Memory

/-- `hashsize`, the shift `(ub4)1<<(n)`. C leaves a shift by the width of the type
open; here, as on the machine, the distance is taken modulo the width. -/
def hashsize (n : Nat) : Nat := 2 ^ (n % 32)

/-- `hashmask` -/
def hashmask (n : Nat) : Nat := hashsize n - 1

/-- `hv & hashmask(n)` -/
def bucketOf (hv : UInt32) (n : Nat) : Nat := hv.toNat &&& hashmask n

theorem hashsize_pos (n : Nat) : 0 < hashsize n := Nat.two_pow_pos _

theorem bucketOf_lt (hv : UInt32) (n : Nat) : bucketOf hv n < hashsize n := by
  have pos := hashsize_pos n
  have le : bucketOf hv n ≤ hashmask n := Nat.and_le_right
  simp only [hashmask] at le
  omega

/-- The variables of `assoc.c`. After an expansion `old` keeps the last contents of
the table that was given back. -/
structure Table (ι : Type) where
  hashpower : Nat
  primary : Array (List ι)
  old : Array (List ι)
  expanding : Bool
  expandBucket : Nat

variable {κ ι : Type}

/-- `calloc(hashsize(n), sizeof(void *))` -/
def emptyBuckets (n : Nat) : Array (List ι) := Array.replicate (hashsize n) []

/-- `assoc_init` -/
def assocInit (hashpower : Nat) : Table ι :=
  { hashpower, primary := emptyBuckets hashpower, old := #[], expanding := false,
    expandBucket := 0 }

namespace Table

/-- The condition under which a hash value belongs in the old table. -/
def inOld (t : Table ι) (hv : UInt32) : Bool :=
  t.expanding && decide (t.expandBucket ≤ bucketOf hv (t.hashpower - 1))

/-- The bucket a hash value belongs in. -/
def chain (t : Table ι) (hv : UInt32) : Exec (List ι) :=
  if t.inOld hv then Exec.access t.old[bucketOf hv (t.hashpower - 1)]?
  else Exec.access t.primary[bucketOf hv t.hashpower]?

/-- Replace that bucket. -/
def setChain (t : Table ι) (hv : UInt32) (items : List ι) : Table ι :=
  if t.inOld hv then
    { t with old := t.old.setIfInBounds (bucketOf hv (t.hashpower - 1)) items }
  else { t with primary := t.primary.setIfInBounds (bucketOf hv t.hashpower) items }

end Table

section

variable [DecidableEq κ] (key : ι → κ) (hash : κ → UInt32)

/-- `assoc_find` -/
def assocFind (t : Table ι) (k : κ) (hv : UInt32) : Exec (Option ι) := do
  let items ← t.chain hv
  return items.find? fun it => decide (k = key it)

/-- `assoc_insert` -/
def assocInsert (t : Table ι) (it : ι) (hv : UInt32) : Exec (Table ι) := do
  let items ← t.chain hv
  return t.setChain hv (it :: items)

/-- `assoc_delete`. Where `_hashitem_before` finds nothing, the function ends in an
assertion. -/
def assocDelete (t : Table ι) (k : κ) (hv : UInt32) : Exec (Table ι) := do
  let items ← t.chain hv
  Exec.assert ((items.find? fun it => decide (k = key it)).isSome)
  return t.setChain hv (items.eraseP fun it => decide (k = key it))

/-- `assoc_expand`; the argument says whether `calloc` succeeds. -/
def assocExpand (t : Table ι) (allocated : Bool) : Table ι :=
  if allocated then
    { hashpower := t.hashpower + 1, primary := emptyBuckets (t.hashpower + 1), old := t.primary,
      expanding := true, expandBucket := 0 }
  else { t with old := t.primary }

/-- The inner loop of `assoc_maintenance_thread`: the items of one bucket go to the
front of their buckets in the new table. -/
def moveItems (hashpower : Nat) : List ι → Array (List ι) → Exec (Array (List ι))
  | [], primary => return primary
  | it :: rest, primary => do
    let bucket := bucketOf (hash (key it)) hashpower
    let items ← Exec.access primary[bucket]?
    moveItems hashpower rest (primary.setIfInBounds bucket (it :: items))

/-- One iteration of `assoc_maintenance_thread` that gets its lock. -/
def moveBucket (t : Table ι) : Exec (Table ι) := do
  if t.expanding then
    let items ← Exec.access t.old[t.expandBucket]?
    let primary ← moveItems key hash t.hashpower items t.primary
    return { t with
      primary
      old := t.old.setIfInBounds t.expandBucket []
      expandBucket := t.expandBucket + 1
      expanding := t.expandBucket + 1 ≠ hashsize (t.hashpower - 1) }
  else return t

end

/-! ## Runs -/

/-- What can happen to the table. -/
inductive Op (κ ι : Type) where
  | insert (it : ι)
  | delete (k : κ)
  | find (k : κ)
  | expand (allocated : Bool)
  | moveBucket

/-- The table, and beside it the map of what was inserted and not deleted since. -/
structure Tracked (κ ι : Type) where
  table : Table ι
  contents : κ → Option ι

section

variable [DecidableEq κ] (key : ι → κ) (hash : κ → UInt32)

/-- An empty table with `hashsize(hashpower)` buckets. -/
def start (hashpower : Nat) : Tracked κ ι :=
  { table := assocInit hashpower, contents := fun _ => none }

/-- One operation. Callers pass the hash value of the key. -/
def step (w : Tracked κ ι) : Op κ ι → Exec (Tracked κ ι)
  | .insert it => do
    let table ← assocInsert w.table it (hash (key it))
    return { table, contents := Function.update w.contents (key it) (some it) }
  | .delete k => do
    let table ← assocDelete key w.table k (hash k)
    return { table, contents := Function.update w.contents k none }
  | .find k => do
    let _ ← assocFind key w.table k (hash k)
    return w
  | .expand allocated => return { w with table := assocExpand w.table allocated }
  | .moveBucket => do
    let table ← moveBucket key hash w.table
    return { w with table }

/-- The callers' obligations: a key is inserted only where it is absent, and an
expansion is not started during another one. -/
def Legal (w : Tracked κ ι) : Op κ ι → Prop
  | .insert it => w.contents (key it) = none
  | .expand _ => w.table.expanding = false
  | .delete _ | .find _ | .moveBucket => True

end

end Kvsev.Assoc
