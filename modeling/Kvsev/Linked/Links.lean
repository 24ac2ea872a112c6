import Mathlib.Data.List.Nodup
import Mathlib.Tactic.Common

/-!
# Doubly linked lists

The pointers of a doubly linked list, and what it means that they show a list of nodes.
Programs change such lists by single writes to pointers. The rules here say what a list
becomes with the usual groups of writes. A part of a list is described by what comes
before it and after it, so that a write to a neighbour only concerns the parts it belongs
to.
-/

namespace Linked

open Function

variable {α : Type}

/-- The pointers of all nodes, and those to both ends of the list. -/
@[ext] structure Links (α : Type) where
  next : α → Option α
  prev : α → Option α
  head : Option α
  tail : Option α

namespace Links

variable {l l' : Links α} {p n : Option α} {a : α} {xs ys zs : List α}

/-- The pointers of some nodes that follow each other, after `p` and before `n`. -/
def Seg (l : Links α) : Option α → List α → Option α → Prop
  | _, [], _ => True
  | p, a :: xs, n => l.prev a = p ∧ l.next a = xs.head?.or n ∧ l.Seg (some a) xs n

theorem seg_append : l.Seg p (xs ++ ys) n ↔
    l.Seg p xs (ys.head?.or n) ∧ l.Seg (xs.getLast?.or p) ys n := by
  induction xs generalizing p with
  | nil => simp [Seg]
  | cons a xs ih =>
    have last : (a :: xs).getLast?.or p = xs.getLast?.or (some a) := by
      rw [List.getLast?_cons, Option.some_or]
      cases xs.getLast? <;> rfl
    rw [last, List.cons_append, Seg, Seg, ih, List.head?_append, Option.or_assoc]
    exact ⟨fun ⟨before, after, first, second⟩ => ⟨⟨before, after, first⟩, second⟩,
      fun ⟨⟨before, after, first⟩, second⟩ => ⟨before, after, first, second⟩⟩

theorem seg_middle : l.Seg p (ys ++ a :: zs) n ↔
    l.Seg p ys (some a) ∧ l.prev a = ys.getLast?.or p ∧ l.next a = zs.head?.or n ∧
      l.Seg (some a) zs n := seg_append

theorem Seg.frame (seg : l.Seg p xs n)
    (same : ∀ a ∈ xs, l'.next a = l.next a ∧ l'.prev a = l.prev a) : l'.Seg p xs n := by
  induction xs generalizing p with
  | nil => exact trivial
  | cons a xs ih =>
    obtain ⟨before, after, rest⟩ := seg
    obtain ⟨next, prev⟩ := same a List.mem_cons_self
    exact ⟨prev.trans before, next.trans after,
      ih rest fun b mem => same b (List.mem_cons_of_mem a mem)⟩

/-- The pointers show this list, from the first node on. -/
structure Shows (l : Links α) (xs : List α) : Prop where
  nodup : xs.Nodup
  head : l.head = xs.head?
  seg : l.Seg none xs none

/-- The pointers show this list from both ends. -/
structure ShowsBoth (l : Links α) (xs : List α) : Prop extends l.Shows xs where
  tail : l.tail = xs.getLast?

/-- Pointers show one list only. -/
theorem Shows.unique (first : l.Shows xs) (second : l.Shows ys) : xs = ys := by
  have same {p : Option α} {xs ys : List α} (first : l.Seg p xs none) (second : l.Seg p ys none)
      (heads : xs.head? = ys.head?) : xs = ys := by
    induction xs generalizing p ys with
    | nil => exact (List.head?_eq_none_iff.mp heads.symm).symm
    | cons a xs ih =>
      cases ys with
      | nil => cases heads
      | cons b ys =>
        obtain rfl : a = b := Option.some.inj heads
        obtain ⟨-, after, first⟩ := first
        obtain ⟨-, after', second⟩ := second
        rw [Option.or_none] at after after'
        rw [ih first second (after.symm.trans after')]
  exact same first.seg second.seg (first.head.symm.trans second.head)

/-! ## Writes -/

variable [DecidableEq α]

def setNext (l : Links α) (a : α) (v : Option α) : Links α :=
  { l with next := update l.next a v }

def setPrev (l : Links α) (a : α) (v : Option α) : Links α :=
  { l with prev := update l.prev a v }

/-- A write to the node a pointer points to, if it points to one. -/
def setNextOf (l : Links α) (p v : Option α) : Links α :=
  match p with
  | none => l
  | some a => l.setNext a v

def setPrevOf (l : Links α) (p v : Option α) : Links α :=
  match p with
  | none => l
  | some a => l.setPrev a v

@[simp] theorem setNextOf_prev (l : Links α) (p v : Option α) :
    (l.setNextOf p v).prev = l.prev := by
  cases p <;> rfl

@[simp] theorem setPrevOf_next (l : Links α) (p v : Option α) :
    (l.setPrevOf p v).next = l.next := by
  cases p <;> rfl

@[simp] theorem setNextOf_head (l : Links α) (p v : Option α) :
    (l.setNextOf p v).head = l.head := by
  cases p <;> rfl

@[simp] theorem setPrevOf_head (l : Links α) (p v : Option α) :
    (l.setPrevOf p v).head = l.head := by
  cases p <;> rfl

@[simp] theorem setNextOf_tail (l : Links α) (p v : Option α) :
    (l.setNextOf p v).tail = l.tail := by
  cases p <;> rfl

@[simp] theorem setPrevOf_tail (l : Links α) (p v : Option α) :
    (l.setPrevOf p v).tail = l.tail := by
  cases p <;> rfl

theorem setNextOf_next_of_ne {p v : Option α} (other : p ≠ some a) :
    (l.setNextOf p v).next a = l.next a := by
  cases p with
  | none => rfl
  | some b => exact update_of_ne (fun same => other (congrArg some same.symm)) _ _

theorem setPrevOf_prev_of_ne {p v : Option α} (other : p ≠ some a) :
    (l.setPrevOf p v).prev a = l.prev a := by
  cases p with
  | none => rfl
  | some b => exact update_of_ne (fun same => other (congrArg some same.symm)) _ _

/-- The last node of a part gets another successor. -/
theorem Seg.setNextOf_last (seg : l.Seg p xs n) (nodup : xs.Nodup) (v : Option α) :
    (l.setNextOf xs.getLast? v).Seg p xs v := by
  obtain rfl | ⟨ys, b, rfl⟩ := List.eq_nil_or_concat xs
  · exact trivial
  rw [List.concat_eq_append] at seg nodup ⊢
  have last : (ys ++ [b]).getLast? = some b := by simp
  have away : b ∉ ys := fun mem => (List.nodup_append.mp nodup).2.2 b mem b (by simp) rfl
  rw [last]
  rw [seg_middle] at seg ⊢
  obtain ⟨front, before, -, -⟩ := seg
  refine ⟨front.frame fun c mem => ⟨?_, rfl⟩, before, update_self _ _ _, trivial⟩
  exact setNextOf_next_of_ne (p := some b) fun same => away (Option.some.inj same ▸ mem)

/-- The first node of a part gets another predecessor. -/
theorem Seg.setPrevOf_head (seg : l.Seg p xs n) (nodup : xs.Nodup) (v : Option α) :
    (l.setPrevOf xs.head? v).Seg v xs n := by
  cases xs with
  | nil => exact trivial
  | cons a xs =>
    obtain ⟨-, after, rest⟩ := seg
    have away := (List.nodup_cons.mp nodup).1
    refine ⟨update_self _ _ _, after, rest.frame fun c mem => ⟨rfl, ?_⟩⟩
    exact setPrevOf_prev_of_ne (p := some a) fun same => away (Option.some.inj same ▸ mem)

theorem Seg.setNextOf_away {q : Option α} (seg : l.Seg p xs n) (away : ∀ a ∈ xs, q ≠ some a)
    (v : Option α) : (l.setNextOf q v).Seg p xs n :=
  seg.frame fun a mem => ⟨setNextOf_next_of_ne (away a mem), by rw [setNextOf_prev]⟩

theorem Seg.setPrevOf_away {q : Option α} (seg : l.Seg p xs n) (away : ∀ a ∈ xs, q ≠ some a)
    (v : Option α) : (l.setPrevOf q v).Seg p xs n :=
  seg.frame fun a mem => ⟨by rw [setPrevOf_next], setPrevOf_prev_of_ne (away a mem)⟩

/-! ## Lists -/

/-- A node becomes the first one. -/
def pushFront (l : Links α) (a : α) : Links α :=
  { ((l.setPrev a none).setNext a l.head).setPrevOf l.head (some a) with head := some a }

/-- The first node is taken off. -/
def popFront (l : Links α) (a : α) : Links α :=
  { l.setPrevOf (l.next a) none with head := l.next a }

/-- A node is taken out, wherever it is. -/
def cut (l : Links α) (a : α) : Links α :=
  { (l.setPrevOf (l.next a) (l.prev a)).setNextOf (l.prev a) (l.next a) with
    head := if l.head = some a then l.next a else l.head }

theorem Shows.pushFront (shows : l.Shows xs) (new : a ∉ xs) : (l.pushFront a).Shows (a :: xs) := by
  have head := shows.head
  have away (b : α) (mem : b ∈ xs) : a ≠ b := fun same => new (same ▸ mem)
  refine ⟨List.nodup_cons.mpr ⟨new, shows.nodup⟩, rfl, ?_, ?_, ?_⟩
  · have other : l.head ≠ some a := by
      rw [head]
      exact fun first => new (List.mem_of_head? first)
    rw [Links.pushFront, setPrevOf_prev_of_ne other]
    exact update_self _ _ _
  · rw [Links.pushFront, setPrevOf_next, Option.or_none, ← head]
    exact update_self _ _ _
  · have fresh : ((l.setPrev a none).setNext a l.head).Seg none xs none :=
      shows.seg.frame fun b mem => ⟨update_of_ne (away b mem).symm _ _,
        update_of_ne (away b mem).symm _ _⟩
    rw [head] at fresh
    rw [Links.pushFront, head]
    exact (fresh.setPrevOf_head shows.nodup (some a)).frame fun b mem => ⟨rfl, rfl⟩

theorem Shows.popFront (shows : l.Shows (a :: xs)) : (l.popFront a).Shows xs := by
  obtain ⟨nodup, -, -, after, rest⟩ := shows
  rw [Option.or_none] at after
  have nodup := (List.nodup_cons.mp nodup).2
  refine ⟨nodup, after, ?_⟩
  rw [Links.popFront, after]
  exact (rest.setPrevOf_head nodup none).frame fun b mem => ⟨rfl, rfl⟩

theorem Shows.cut (shows : l.Shows (ys ++ a :: zs)) : (l.cut a).Shows (ys ++ zs) := by
  obtain ⟨nodup, head, seg⟩ := shows
  rw [seg_middle, Option.or_none, Option.or_none] at seg
  obtain ⟨front, before, after, rest⟩ := seg
  have apart := List.nodup_middle.mp nodup
  have nodup := (List.nodup_cons.mp apart).2
  obtain ⟨nodupFront, nodupRest, disjoint⟩ := List.nodup_append.mp nodup
  have lastAway (b : α) (mem : b ∈ zs) : ys.getLast? ≠ some b := fun last =>
    disjoint b (List.mem_of_getLast? last) b mem rfl
  have firstAway (b : α) (mem : b ∈ ys) : zs.head? ≠ some b := fun first =>
    disjoint b mem b (List.mem_of_head? first) rfl
  refine ⟨nodup, ?_, ?_⟩
  · rw [Links.cut]
    cases ys with
    | nil =>
      simp only [List.nil_append, List.head?_cons] at head ⊢
      rw [if_pos head, after]
    | cons y ys =>
      have other : l.head ≠ some a := by
        rw [head]
        rintro ⟨⟩
        exact (List.nodup_cons.mp apart).1 List.mem_cons_self
      exact (if_neg other).trans head
  · rw [Links.cut, before, after, seg_append, Option.or_none, Option.or_none]
    constructor
    · exact ((front.setPrevOf_away firstAway _).setNextOf_last nodupFront _).frame
        fun b mem => ⟨rfl, rfl⟩
    · exact ((rest.setPrevOf_head nodupRest _).setNextOf_away lastAway _).frame
        fun b mem => ⟨rfl, rfl⟩

/-- Another node takes the place of one. -/
def replace (l : Links α) (a b : α) : Links α :=
  (((l.setNextOf (l.prev a) (some b)).setPrevOf (l.next a) (some b)).setNext b
    (l.next a)).setPrev b (l.prev a)

/-- Only the neighbours notice. -/
theorem replace_frame {b c : α} (other : c ≠ b) (before : l.prev a ≠ some c)
    (after : l.next a ≠ some c) :
    (l.replace a b).next c = l.next c ∧ (l.replace a b).prev c = l.prev c := by
  constructor
  · simp only [replace, setPrev, setNext, update_of_ne other, setPrevOf_next]
    exact setNextOf_next_of_ne before
  · simp only [replace, setPrev, setNext, update_of_ne other]
    rw [setPrevOf_prev_of_ne after, setNextOf_prev]

theorem Seg.replace {b : α} (seg : l.Seg none (ys ++ a :: zs) none)
    (nodup : (ys ++ a :: zs).Nodup) (new : b ∉ ys ++ a :: zs) :
    (l.replace a b).Seg none (ys ++ b :: zs) none := by
  rw [seg_middle, Option.or_none, Option.or_none] at seg
  obtain ⟨front, before, after, rest⟩ := seg
  have nodup := (List.nodup_cons.mp (List.nodup_middle.mp nodup)).2
  obtain ⟨nodupFront, nodupRest, disjoint⟩ := List.nodup_append.mp nodup
  have lastAway (c : α) (mem : c ∈ zs) : ys.getLast? ≠ some c := fun last =>
    disjoint c (List.mem_of_getLast? last) c mem rfl
  have firstAway (c : α) (mem : c ∈ ys) : zs.head? ≠ some c := fun first =>
    disjoint c mem c (List.mem_of_head? first) rfl
  have inFront (c : α) (mem : c ∈ ys) : c ≠ b := fun same => new (by simp [← same, mem])
  have inRest (c : α) (mem : c ∈ zs) : c ≠ b := fun same => new (by simp [← same, mem])
  rw [seg_middle, Option.or_none, Option.or_none, Links.replace, before, after]
  refine ⟨?_, update_self _ _ _, update_self _ _ _, ?_⟩
  · exact ((front.setNextOf_last nodupFront (some b)).setPrevOf_away firstAway _).frame
      fun c mem => ⟨update_of_ne (inFront c mem) _ _,
        update_of_ne (inFront c mem) _ _⟩
  · exact ((rest.setNextOf_away lastAway _).setPrevOf_head nodupRest (some b)).frame
      fun c mem => ⟨update_of_ne (inRest c mem) _ _,
        update_of_ne (inRest c mem) _ _⟩

/-! ## Lists with two ends -/

/-- A node becomes the first one, and the last one if it is alone. -/
def linkFront (l : Links α) (a : α) : Links α :=
  { l.pushFront a with tail := if l.tail = none then some a else l.tail }

/-- A node becomes the last one, and the first one if it is alone. -/
def linkBack (l : Links α) (a : α) : Links α :=
  { ((l.setPrev a l.tail).setNext a none).setNextOf l.tail (some a) with
    tail := some a, head := if l.head = none then some a else l.head }

/-- A node is taken out, wherever it is. -/
def unlink (l : Links α) (a : α) : Links α :=
  { l.cut a with tail := if l.tail = some a then l.prev a else l.tail }

/-- A node changes places with the one before it. -/
def stepFront (l : Links α) (b a : α) : Links α where
  next := update (update
    (l.setNextOf (l.prev b) (some a)).next b (l.next a)) a (some b)
  prev := update (update
    (l.setPrevOf (l.next a) (some b)).prev b (some a)) a (l.prev b)
  head := if l.head = some b then some a else l.head
  tail := if l.tail = some a then some b else l.tail

theorem ShowsBoth.linkFront (shows : l.ShowsBoth xs) (new : a ∉ xs) :
    (l.linkFront a).ShowsBoth (a :: xs) := by
  obtain ⟨nodup, head, seg⟩ := shows.toShows.pushFront new
  refine ⟨⟨nodup, head, seg.frame fun b mem => ⟨rfl, rfl⟩⟩, ?_⟩
  rw [Links.linkFront, shows.tail, List.getLast?_cons]
  cases xs.getLast? <;> simp

/-- The first node of several is taken off. -/
theorem ShowsBoth.popFront (shows : l.ShowsBoth (a :: xs)) (more : xs ≠ []) :
    (l.popFront a).ShowsBoth xs := by
  refine ⟨shows.toShows.popFront, ?_⟩
  rw [Links.popFront, setPrevOf_tail, shows.tail, List.getLast?_cons_of_ne_nil more]

/-- There is nothing before the first node. -/
theorem ShowsBoth.setPrevOf_head (shows : l.ShowsBoth xs) :
    (l.setPrevOf xs.head? none).ShowsBoth xs := by
  refine ⟨⟨shows.nodup, ?_, shows.seg.setPrevOf_head shows.nodup none⟩, ?_⟩
  · rw [Links.setPrevOf_head, shows.head]
  · rw [setPrevOf_tail, shows.tail]

theorem ShowsBoth.unlink (shows : l.ShowsBoth (ys ++ a :: zs)) :
    (l.unlink a).ShowsBoth (ys ++ zs) := by
  obtain ⟨nodup, head, seg⟩ := shows.toShows.cut
  refine ⟨⟨nodup, head, seg.frame fun b mem => ⟨rfl, rfl⟩⟩, ?_⟩
  have before : l.prev a = ys.getLast? := by
    have middle := (seg_middle.mp shows.seg).2.1
    rwa [Option.or_none] at middle
  have tail : l.tail = (zs.getLast?).or (some a) := by
    rw [shows.tail, List.getLast?_append, List.getLast?_cons]
    cases zs.getLast? <;> rfl
  rw [Links.unlink, List.getLast?_append, tail, before]
  cases last : zs.getLast? with
  | none => exact if_pos rfl
  | some b =>
    refine if_neg ?_
    rintro ⟨⟩
    have apart := (List.nodup_cons.mp (List.nodup_middle.mp shows.nodup)).1
    exact apart (List.mem_append_right ys (List.mem_of_getLast? last))

theorem ShowsBoth.linkBack (shows : l.ShowsBoth xs) (new : a ∉ xs) :
    (l.linkBack a).ShowsBoth (xs ++ [a]) := by
  have tail := shows.tail
  have away (b : α) (mem : b ∈ xs) : a ≠ b := fun same => new (same ▸ mem)
  refine ⟨⟨?_, ?_, ?_⟩, ?_⟩
  · rw [← List.concat_eq_append]
    exact shows.nodup.concat new
  · rw [Links.linkBack, shows.head, List.head?_append]
    cases xs.head? <;> simp
  · have fresh : ((l.setPrev a l.tail).setNext a none).Seg none xs none :=
      shows.seg.frame fun b mem => ⟨update_of_ne (away b mem).symm _ _,
        update_of_ne (away b mem).symm _ _⟩
    rw [tail] at fresh
    rw [seg_middle, Option.or_none, Links.linkBack, tail]
    refine ⟨(fresh.setNextOf_last shows.nodup (some a)).frame fun b mem => ⟨rfl, rfl⟩, ?_, ?_,
      trivial⟩
    · rw [setNextOf_prev]
      exact update_self _ _ _
    · rw [setNextOf_next_of_ne fun last => new (List.mem_of_getLast? last)]
      exact update_self _ _ _
  · simp [Links.linkBack]

theorem ShowsBoth.stepFront {b : α} (shows : l.ShowsBoth (ys ++ b :: a :: zs)) :
    (l.stepFront b a).ShowsBoth (ys ++ a :: b :: zs) := by
  obtain ⟨⟨nodup, head, seg⟩, tail⟩ := shows
  have swapped : (ys ++ a :: b :: zs).Nodup :=
    ((List.Perm.swap a b zs).append_left ys).nodup_iff.mp nodup
  rw [seg_middle, Option.or_none, Option.or_none] at seg
  obtain ⟨front, beforeB, -, -, afterA, rest⟩ := seg
  rw [Option.or_none] at afterA
  obtain ⟨nodupYs, nodupTail, disjoint⟩ := List.nodup_append.mp nodup
  obtain ⟨bAway, nodupTail⟩ := List.nodup_cons.mp nodupTail
  obtain ⟨aAway, nodupZs⟩ := List.nodup_cons.mp nodupTail
  have other : a ≠ b := fun same => bAway (same ▸ List.mem_cons_self)
  -- The nodes of the first and of the last part are others than the two, and not in both.
  have inFront {c : α} (mem : c ∈ ys) : c ≠ a ∧ c ≠ b ∧ zs.head? ≠ some c :=
    ⟨disjoint c mem a (by simp), disjoint c mem b (by simp), fun first =>
      disjoint c mem c (by simp [List.mem_of_head? first]) rfl⟩
  have inRest {c : α} (mem : c ∈ zs) : c ≠ a ∧ c ≠ b ∧ ys.getLast? ≠ some c :=
    ⟨fun same => aAway (same ▸ mem), fun same => bAway (List.mem_cons_of_mem a (same ▸ mem)),
      fun last => disjoint c (List.mem_of_getLast? last) c (by simp [mem]) rfl⟩
  refine ⟨⟨swapped, ?_, ?_⟩, ?_⟩
  · rw [Links.stepFront]
    cases ys with
    | nil => exact if_pos head
    | cons y ys =>
      have first : l.head ≠ some b := by
        rw [head]
        rintro ⟨⟩
        exact (inFront List.mem_cons_self).2.1 rfl
      exact (if_neg first).trans head
  · rw [seg_middle, Links.stepFront, beforeB, afterA, Option.or_none]
    refine ⟨(front.setNextOf_last nodupYs (some a)).frame fun c mem => ⟨?_, ?_⟩,
      update_self _ _ _, update_self _ _ _, ?_, ?_,
      (rest.setPrevOf_head nodupZs (some b)).frame fun c mem => ⟨?_, ?_⟩⟩
    · simp only [update_of_ne (inFront mem).1, update_of_ne (inFront mem).2.1]
    · simp only [update_of_ne (inFront mem).1, update_of_ne (inFront mem).2.1,
        setPrevOf_prev_of_ne (inFront mem).2.2, setNextOf_prev]
    · simp only [update_of_ne other.symm, update_self]
    · simp only [update_of_ne other.symm, update_self, Option.or_none]
    · simp only [update_of_ne (inRest mem).1, update_of_ne (inRest mem).2.1,
        setNextOf_next_of_ne (inRest mem).2.2, setPrevOf_next]
    · simp only [update_of_ne (inRest mem).1, update_of_ne (inRest mem).2.1]
  · rw [Links.stepFront]
    have whole (x y : α) : (ys ++ x :: y :: zs).getLast? = zs.getLast?.or (some y) := by
      rw [show ys ++ x :: y :: zs = (ys ++ [x, y]) ++ zs by simp, List.getLast?_append]
      simp
    rw [whole] at tail
    rw [whole]
    cases last : zs.getLast? with
    | none => simp [tail, last]
    | some c =>
      have away : c ≠ a := (inRest (List.mem_of_getLast? last)).1
      simp [tail, last, away]

end Links

end Linked
