import Kvsev.Linked.Links
import Kvsev.Memory.Block
import Kvsev.Transition.Run

/-!
# One LRU list

The list of the items of one class, from the most recent one at `heads` to the oldest one
at `tails`. The LRU crawler puts a pseudo item at the tail and lets it change places with
the items before it, one at a time, while items are linked and unlinked around it. Each
function is one step under the lock of the class. When there is nothing left to crawl, the
crawler keeps the lock until its pseudo item has left the list.

The number of bytes of an item does not change while it is linked.
-/

namespace Kvsev.Lru

open Memory Linked

/-- What is in the list: items, and the pseudo item `crawlers[i]`. -/
inductive Node (ι : Type) where
  | item (it : ι)
  | crawler
  deriving DecidableEq, Repr

/-- Where the crawler is with this class. -/
inductive Crawler where
  /-- Its flags are not set. -/
  | away
  | walking
  /-- `do_item_crawl_q` has returned `NULL`, and the crawler holds the lock. -/
  | leaving
  deriving DecidableEq, Repr

/-- The list of one class with its counters. -/
structure Queue (ι : Type) where
  links : Links (Node ι)
  sizes : Nat
  sizesBytes : Nat
  /-- The items with `ITEM_LINKED` that belong to this class. -/
  linked : ι → Bool
  crawler : Crawler
  /-- What `do_item_crawl_q` has returned since the crawler came to the tail. -/
  returned : List (Node ι)

namespace Queue

variable {ι : Type} [DecidableEq ι]

/-- Both ends of the list are set, or none. -/
def bothEnds (l : Links (Node ι)) : Prop :=
  (l.head ≠ none ∧ l.tail ≠ none) ∨ (l.head = none ∧ l.tail = none)

instance (l : Links (Node ι)) : Decidable (bothEnds l) := inferInstanceAs (Decidable (_ ∨ _))

/-- `do_item_link_q`; the size of an item is its `ITEM_ntotal`. -/
def doItemLinkQ (ntotal : ι → Nat) (q : Queue ι) (it : ι) : Exec (Queue ι) := do
  let n := Node.item it
  let l := q.links
  Exec.assert (l.head ≠ some n)
  Exec.assert (bothEnds l)
  let l := l.setPrev n none
  let l := l.setNext n l.head
  let l := l.setPrevOf (l.next n) (some n)
  let l := { l with head := some n }
  let l := { l with tail := if l.tail = none then some n else l.tail }
  return { q with links := l, sizes := q.sizes + 1, sizesBytes := q.sizesBytes + ntotal it }

/-- What `do_item_unlink_q` and `do_item_unlinktail_q` do to the pointers. -/
def unlinkNode (l : Links (Node ι)) (n : Node ι) : Exec (Links (Node ι)) := do
  Exec.assert (l.head = some n → l.prev n = none)
  let l := { l with head := if l.head = some n then l.next n else l.head }
  Exec.assert (l.tail = some n → l.next n = none)
  let l := { l with tail := if l.tail = some n then l.prev n else l.tail }
  Exec.assert (l.next n ≠ some n)
  Exec.assert (l.prev n ≠ some n)
  let l := l.setPrevOf (l.next n) (l.prev n)
  return l.setNextOf (l.prev n) (l.next n)

/-- `do_item_unlink_q` -/
def doItemUnlinkQ (ntotal : ι → Nat) (q : Queue ι) (it : ι) : Exec (Queue ι) := do
  let links ← unlinkNode q.links (.item it)
  return { q with links, sizes := q.sizes - 1, sizesBytes := q.sizesBytes - ntotal it }

/-- `do_item_unlinktail_q` -/
def doItemUnlinktailQ (l : Links (Node ι)) : Exec (Links (Node ι)) := unlinkNode l .crawler

/-- `do_item_linktail_q` -/
def doItemLinktailQ (l : Links (Node ι)) : Exec (Links (Node ι)) := do
  let n := Node.crawler
  Exec.assert (l.tail ≠ some n)
  Exec.assert (bothEnds l)
  let l := l.setPrev n l.tail
  let l := l.setNext n none
  Exec.assert (∀ p ∈ l.prev n, l.next p = none)
  let l := l.setNextOf (l.prev n) (some n)
  let l := { l with tail := some n }
  return { l with head := if l.head = none then some n else l.head }

/-- The shuffle of `do_item_crawl_q`: a node comes in front of the one before it. -/
def swing (l : Links (Node ι)) (n before : Node ι) : Links (Node ι) :=
  let l := { l with head := if l.head = some before then some n else l.head }
  let l := { l with tail := if l.tail = some n then some before else l.tail }
  let l := l.setNext before (l.next n)
  let l := l.setPrevOf (l.next n) (some before)
  let l := l.setNext n (some before)
  let l := l.setPrev n (l.prev before)
  let l := l.setPrev before (some n)
  l.setNextOf (l.prev n) (some n)

/-- `do_item_crawl_q` -/
def doItemCrawlQ (l : Links (Node ι)) : Exec (Option (Node ι) × Links (Node ι)) :=
  let n := Node.crawler
  match l.prev n with
  | none => do
    -- The head is reached.
    Exec.assert (l.head = some n)
    match l.next n with
    | none => return (none, l)
    | some after =>
      let l := { l with head := some after }
      Exec.assert (l.prev after = some n)
      return (none, l.setPrev after none)
  | some before => do
    Exec.assert (before ≠ n)
    Exec.assert (l.next n ≠ some n)
    Exec.assert (l.next n ≠ none → l.next before = some n)
    let l := swing l n before
    Exec.assert (l.next n ≠ some n)
    Exec.assert (l.prev n ≠ some n)
    return (l.next n, l)

/-- What happens to the list of a class. -/
inductive Event (ι : Type) where
  | link (it : ι)
  | unlink (it : ι)
  /-- The crawler starts with the class. -/
  | linktail
  /-- The crawler asks for the next item. -/
  | crawl
  /-- The crawler gives the class up. -/
  | unlinktail
  deriving DecidableEq, Repr

/-- The steps of the crawler. -/
def Event.byCrawler : Event ι → Bool
  | .link _ | .unlink _ => false
  | .linktail | .crawl | .unlinktail => true

/-- One step. Items are linked if they are not, and unlinked if they are, and the crawler
is at one place of the list at most. Nobody else gets the lock while the crawler leaves. -/
def step (ntotal : ι → Nat) (q : Queue ι) : Event ι → Exec (Queue ι)
  | .link it =>
    if q.linked it ∨ q.crawler = .leaving then return q
    else do
      let q ← q.doItemLinkQ ntotal it
      return { q with linked := Function.update q.linked it true }
  | .unlink it =>
    if ¬q.linked it ∨ q.crawler = .leaving then return q
    else do
      let q ← q.doItemUnlinkQ ntotal it
      return { q with linked := Function.update q.linked it false }
  | .linktail =>
    match q.crawler with
    | .away => do
      let links ← doItemLinktailQ q.links
      return { q with links, crawler := .walking, returned := [] }
    | .walking | .leaving => return q
  | .crawl =>
    match q.crawler with
    | .walking => do
      match ← doItemCrawlQ q.links with
      | (some n, links) => return { q with links, returned := q.returned ++ [n] }
      | (none, links) => return { q with links, crawler := .leaving }
    | .away | .leaving => return q
  | .unlinktail =>
    match q.crawler with
    | .walking | .leaving => do
      let links ← doItemUnlinktailQ q.links
      return { q with links, crawler := .away }
    | .away => return q

end Queue

end Kvsev.Lru
