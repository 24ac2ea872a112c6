import Kvsev.Lru.Queue
import Mathlib.Algebra.GroupWithZero.Nat

/-!
# LRU lists stay exact

Each function is compared with the operation of the general development on doubly linked
lists it stands for. What the list becomes with a step then follows from the rules there,
and the counters and the crawler's way from what the list becomes.
-/

namespace Kvsev.Lru

open Function Memory Linked Transition

namespace Queue

variable {ι : Type} [DecidableEq ι] {ntotal : ι → Nat} {q q' : Queue ι} {l : Links (Node ι)}
  {xs ys zs : List (Node ι)} {n b : Node ι} {it : ι}

/-! ## The functions as operations on lists -/

omit [DecidableEq ι] in
theorem bothEnds_of_shows (shows : l.ShowsBoth xs) : bothEnds l := by
  rw [bothEnds, shows.head, shows.tail]
  cases xs <;> simp

theorem doItemLinkQ_eq (shows : q.links.ShowsBoth xs) (new : Node.item it ∉ xs) :
    q.doItemLinkQ ntotal it = .ok ⟨q.links.linkFront (.item it), q.sizes + 1,
      q.sizesBytes + ntotal it, q.linked, q.crawler, q.returned⟩ := by
  have other : q.links.head ≠ some (.item it) := by
    rw [shows.head]
    exact fun first => new (List.mem_of_head? first)
  rw [doItemLinkQ, Exec.assert_of other, Exec.assert_of (bothEnds_of_shows shows)]
  simp only [Exec.ok_bind, Links.setNext, Links.setPrev, update_self,
    Links.setPrevOf_tail, Links.linkFront, Links.pushFront]
  rfl

theorem unlinkNode_eq (shows : l.ShowsBoth (ys ++ n :: zs)) :
    unlinkNode l n = .ok (l.unlink n) := by
  obtain ⟨-, before, after, -⟩ := Links.seg_middle.mp shows.seg
  rw [Option.or_none] at before after
  have apart := (List.nodup_cons.mp (List.nodup_middle.mp shows.nodup)).1
  have first (isHead : l.head = some n) : l.prev n = none := by
    cases ys with
    | nil => exact before
    | cons y ys =>
      rw [shows.head] at isHead
      cases isHead
      exact absurd List.mem_cons_self apart
  have last (isTail : l.tail = some n) : l.next n = none := by
    rw [shows.tail, List.getLast?_append, List.getLast?_cons, Option.some_or] at isTail
    cases ending : zs.getLast? with
    | none => rw [after, List.getLast?_eq_none_iff.mp ending, List.head?_nil]
    | some z =>
      rw [ending] at isTail
      obtain rfl : z = n := Option.some.inj isTail
      exact absurd (List.mem_append_right ys (List.mem_of_getLast? ending)) apart
  have noNext : l.next n ≠ some n := by
    rw [after]
    exact fun head => apart (List.mem_append_right ys (List.mem_of_head? head))
  have noPrev : l.prev n ≠ some n := by
    rw [before]
    exact fun tail => apart (List.mem_append_left zs (List.mem_of_getLast? tail))
  rw [unlinkNode, Exec.assert_of first, Exec.ok_bind]
  dsimp only
  rw [Exec.assert_of last, Exec.assert_of noNext, Exec.assert_of noPrev]
  simp only [Exec.ok_bind, Links.setPrevOf_next, Links.setPrevOf_prev_of_ne noNext]
  rw [Links.unlink, Links.cut]
  generalize l.next n = after, l.prev n = before
  cases after <;> cases before <;> rfl

/-- A node that was taken off at the head still points to what comes after it. -/
theorem unlinkNode_off (shows : l.ShowsBoth xs) (off : n ∉ xs) (before : l.prev n = none)
    (after : l.next n = xs.head?) : unlinkNode l n = .ok (l.setPrevOf xs.head? none) := by
  have notHead : l.head ≠ some n := by
    rw [shows.head]
    exact fun first => off (List.mem_of_head? first)
  have notTail : l.tail ≠ some n := by
    rw [shows.tail]
    exact fun last => off (List.mem_of_getLast? last)
  have noNext : l.next n ≠ some n := by
    rw [after]
    exact fun first => off (List.mem_of_head? first)
  have noPrev : l.prev n ≠ some n := by
    rw [before]
    exact Option.some_ne_none n |>.symm
  rw [unlinkNode, Exec.assert_of fun same => absurd same notHead, Exec.ok_bind]
  dsimp only
  rw [Exec.assert_of fun same => absurd same notTail, Exec.assert_of noNext,
    Exec.assert_of noPrev]
  simp only [Exec.ok_bind, Links.setPrevOf_next, Links.setPrevOf_prev_of_ne noNext, before,
    if_neg notHead, if_neg notTail]
  rw [after]
  rfl

theorem doItemLinktailQ_eq (shows : l.ShowsBoth xs) (new : Node.crawler ∉ xs) :
    doItemLinktailQ l = .ok (l.linkBack .crawler) := by
  have other : l.tail ≠ some .crawler := by
    rw [shows.tail]
    exact fun last => new (List.mem_of_getLast? last)
  have ends (p : Node ι) (isTail : p ∈ l.tail) : l.next p = none := by
    rw [shows.tail] at isTail
    obtain ⟨ys, rfl⟩ := List.getLast?_eq_some_iff.mp isTail
    exact (Links.seg_middle.mp shows.seg).2.2.1
  rw [doItemLinktailQ, Exec.assert_of other, Exec.assert_of (bothEnds_of_shows shows)]
  simp only [Exec.ok_bind, Links.setPrev, Links.setNext, update_self]
  rw [Exec.assert_of fun p isTail => ?_]
  · simp only [Exec.ok_bind, Links.linkBack, Links.setPrev, Links.setNext, Links.setNextOf_head]
    rfl
  · rw [update_of_ne]
    · exact ends p isTail
    · rintro rfl
      exact other isTail

/-- At the head the crawler is taken off, unless it is alone. -/
theorem doItemCrawlQ_head (shows : l.ShowsBoth (.crawler :: zs)) :
    doItemCrawlQ l = .ok (none, if zs = [] then l else l.popFront .crawler) := by
  obtain ⟨before, after, rest⟩ := shows.seg
  rw [Option.or_none] at after
  have head : l.head = some .crawler := shows.head
  simp only [doItemCrawlQ, before]
  rw [Exec.assert_of head, Exec.ok_bind, after]
  cases zs with
  | nil => rfl
  | cons z zs =>
    dsimp only [List.head?_cons]
    rw [Exec.assert_of rest.1, if_neg (List.cons_ne_nil z zs), Links.popFront, after]
    rfl

theorem swing_eq (other : n ≠ b) (next : l.next n ≠ some n ∧ l.next n ≠ some b)
    (prev : l.prev b ≠ some n ∧ l.prev b ≠ some b) : swing l n b = l.stepFront b n := by
  simp only [swing, Links.setNext, Links.setPrev, Links.setPrevOf_next,
    update_of_ne other, update_self, Links.setPrevOf_prev_of_ne next.2]
  obtain ⟨after, isAfter⟩ : ∃ v, l.next n = v := ⟨_, rfl⟩
  obtain ⟨before, isBefore⟩ : ∃ v, l.prev b = v := ⟨_, rfl⟩
  rw [isAfter] at next
  rw [isBefore] at prev
  rw [isAfter, isBefore, Links.stepFront, isAfter, isBefore]
  ext x : 2
  · cases before with
    | none => rfl
    | some p =>
      simp only [Links.setNextOf, Links.setNext, update_apply]
      grind
  · cases after <;>
      simp only [Links.setNextOf_prev, Links.setPrevOf, Links.setPrev, update_apply] <;>
      grind
  · simp only [Links.setNextOf_head, Links.setPrevOf_head]
  · simp only [Links.setNextOf_tail, Links.setPrevOf_tail]

theorem doItemCrawlQ_step (shows : l.ShowsBoth (ys ++ b :: .crawler :: zs)) :
    doItemCrawlQ l = .ok (some b, l.stepFront b .crawler) := by
  obtain ⟨-, beforeB, afterB, before, after, -⟩ := Links.seg_middle.mp shows.seg
  rw [Option.or_none] at beforeB after
  have isNext : l.next b = some .crawler := afterB
  obtain ⟨-, nodup, disjoint⟩ := List.nodup_append.mp shows.nodup
  obtain ⟨bAway, nodup⟩ := List.nodup_cons.mp nodup
  obtain ⟨aAway, -⟩ := List.nodup_cons.mp nodup
  have other : b ≠ .crawler := fun same => bAway (same ▸ List.mem_cons_self)
  have next : l.next .crawler ≠ some .crawler ∧ l.next .crawler ≠ some b := by
    rw [after]
    exact ⟨fun first => aAway (List.mem_of_head? first), fun first =>
      bAway (List.mem_cons_of_mem _ (List.mem_of_head? first))⟩
  have prev : l.prev b ≠ some .crawler ∧ l.prev b ≠ some b := by
    rw [beforeB]
    exact ⟨fun last => disjoint _ (List.mem_of_getLast? last) .crawler (by simp) rfl, fun last =>
      disjoint _ (List.mem_of_getLast? last) b (by simp) rfl⟩
  simp only [doItemCrawlQ, before]
  rw [Exec.assert_of other, Exec.assert_of next.1, Exec.assert_of fun _ => isNext,
    swing_eq other.symm next prev]
  have first : (l.stepFront b .crawler).next .crawler = some b := by simp [Links.stepFront]
  have second : (l.stepFront b .crawler).prev .crawler = l.prev b := by simp [Links.stepFront]
  have new : some b ≠ some .crawler := fun same => other (Option.some.inj same)
  rw [first, second, Exec.assert_of new, Exec.assert_of prev.1]
  rfl

/-! ## What the list becomes -/

section

omit [DecidableEq ι]

/-- The items of a list. -/
def reals (xs : List (Node ι)) : List ι :=
  xs.filterMap fun
    | .item it => some it
    | .crawler => none

@[simp] theorem reals_append : reals (xs ++ ys) = reals xs ++ reals ys := List.filterMap_append

@[simp] theorem reals_item : reals (.item it :: xs) = it :: reals xs := rfl

@[simp] theorem reals_crawler : reals (Node.crawler :: xs : List (Node ι)) = reals xs := rfl

@[simp] theorem reals_nil : reals ([] : List (Node ι)) = [] := rfl

theorem mem_reals : it ∈ reals xs ↔ Node.item it ∈ xs := by
  rw [reals, List.mem_filterMap]
  constructor
  · rintro ⟨_ | _, mem, same⟩
    · cases same
      exact mem
    · cases same
  · exact fun mem => ⟨_, mem, rfl⟩

/-- Where the pseudo item of the crawler is. When the crawler leaves, it is off the list or
alone on it. -/
def Places (q : Queue ι) (xs : List (Node ι)) : Prop :=
  match q.crawler with
  | .away => .crawler ∉ xs
  | .walking => .crawler ∈ xs
  | .leaving => xs = [.crawler] ∨
      .crawler ∉ xs ∧ q.links.prev .crawler = none ∧ q.links.next .crawler = xs.head?

/-- The pointers show the list, and the counters are right. -/
structure Shown (ntotal : ι → Nat) (q : Queue ι) (xs : List (Node ι)) : Prop where
  shows : q.links.ShowsBoth xs
  sizes : q.sizes = (reals xs).length
  sizesBytes : q.sizesBytes = ((reals xs).map ntotal).sum
  linked : ∀ it, q.linked it = true ↔ it ∈ reals xs
  crawler : q.Places xs

/-- What the crawler does to the pointers leaves the counters right. -/
theorem Shown.relink {crawler : Crawler} {returned : List (Node ι)} (shown : Shown ntotal q xs)
    (shows : l.ShowsBoth ys) (same : reals ys = reals xs)
    (place : Places ⟨l, q.sizes, q.sizesBytes, q.linked, crawler, returned⟩ ys) :
    Shown ntotal ⟨l, q.sizes, q.sizesBytes, q.linked, crawler, returned⟩ ys where
  shows := shows
  sizes := by rw [same, shown.sizes]
  sizesBytes := by rw [same, shown.sizesBytes]
  linked it := by rw [same, shown.linked]
  crawler := place

end

theorem step_link (shown : Shown ntotal q xs) (new : q.linked it = false)
    (free : q.crawler ≠ .leaving) : ∃ q', step ntotal q (.link it) = .ok q' ∧
      Shown ntotal q' (.item it :: xs) ∧ q'.crawler = q.crawler ∧ q'.returned = q.returned := by
  have fresh : Node.item it ∉ xs := by
    rw [← mem_reals, ← shown.linked, new]
    exact Bool.false_ne_true
  have allowed : ¬((q.linked it : Prop) ∨ q.crawler = .leaving) := by
    simp [new, free]
  rw [step, if_neg allowed, doItemLinkQ_eq shown.shows fresh]
  refine ⟨_, rfl, ⟨shown.shows.linkFront fresh, ?_, ?_, fun other => ?_, ?_⟩, rfl, rfl⟩
  · simp [shown.sizes]
  · simp [shown.sizesBytes, Nat.add_comm]
  · rw [reals_item, List.mem_cons, ← shown.linked]
    simp only [update_apply]
    split
    · next same => simp [same]
    · next differ => simp [differ]
  · have place := shown.crawler
    unfold Places at place ⊢
    cases now : q.crawler with
    | away | walking => simpa [now] using place
    | leaving => exact absurd now free

theorem step_unlink (shown : Shown ntotal q xs) (mem : q.linked it = true)
    (free : q.crawler ≠ .leaving) : ∃ q' ys zs, step ntotal q (.unlink it) = .ok q' ∧
      xs = ys ++ .item it :: zs ∧ Shown ntotal q' (ys ++ zs) ∧ q'.crawler = q.crawler ∧
        q'.returned = q.returned := by
  obtain ⟨ys, zs, rfl⟩ := List.append_of_mem (mem_reals.mp ((shown.linked it).mp mem))
  have allowed : ¬(¬(q.linked it : Prop) ∨ q.crawler = .leaving) := by
    simp [mem, free]
  have apart := (List.nodup_cons.mp (List.nodup_middle.mp shown.shows.nodup)).1
  rw [step, if_neg allowed, doItemUnlinkQ, unlinkNode_eq shown.shows]
  refine ⟨_, ys, zs, rfl, rfl, ⟨shown.shows.unlink, ?_, ?_, fun other => ?_, ?_⟩, rfl, rfl⟩
  · simp [shown.sizes]
  · simp [shown.sizesBytes, Nat.add_left_comm]
  · simp only [update_apply]
    split
    · next same =>
        subst same
        simpa [mem_reals] using apart
    · next differ =>
        rw [shown.linked, mem_reals, mem_reals]
        simp [differ]
  · have place := shown.crawler
    unfold Places at place ⊢
    cases now : q.crawler with
    | away | walking => simpa [now] using place
    | leaving => exact absurd now free

theorem step_linktail (shown : Shown ntotal q xs) (away : q.crawler = .away) :
    ∃ q', step ntotal q .linktail = .ok q' ∧ Shown ntotal q' (xs ++ [.crawler]) ∧
      q'.crawler = .walking ∧ q'.returned = [] := by
  have new : .crawler ∉ xs := by
    have place := shown.crawler
    rwa [Places, away] at place
  simp only [step, away]
  rw [doItemLinktailQ_eq shown.shows new]
  refine ⟨_, rfl, shown.relink (shown.shows.linkBack new) ?_ ?_, rfl, rfl⟩
  · simp
  · simp [Places]

/-- The crawler passes the item before it and returns it. -/
theorem step_crawl (shown : Shown ntotal q (ys ++ b :: .crawler :: zs))
    (walking : q.crawler = .walking) : ∃ q', step ntotal q .crawl = .ok q' ∧
      Shown ntotal q' (ys ++ .crawler :: b :: zs) ∧ q'.crawler = .walking ∧
        q'.returned = q.returned ++ [b] := by
  simp only [step, walking]
  rw [doItemCrawlQ_step shown.shows]
  refine ⟨_, rfl, shown.relink shown.shows.stepFront ?_ ?_, rfl, rfl⟩
  · cases b <;> simp
  · simp [Places]

theorem step_crawl_head (shown : Shown ntotal q (.crawler :: zs))
    (walking : q.crawler = .walking) : ∃ q' xs, step ntotal q .crawl = .ok q' ∧
      Shown ntotal q' xs ∧ reals xs = reals zs ∧ q'.crawler = .leaving ∧
        q'.returned = q.returned := by
  have apart := (List.nodup_cons.mp shown.shows.nodup).1
  obtain ⟨before, after, -⟩ := shown.shows.seg
  rw [Option.or_none] at after
  simp only [step, walking]
  rw [doItemCrawlQ_head shown.shows]
  by_cases alone : zs = []
  · subst alone
    exact ⟨_, [.crawler], rfl, shown.relink shown.shows rfl (.inl rfl), rfl, rfl, rfl⟩
  rw [if_neg alone]
  refine ⟨_, zs, rfl, shown.relink (shown.shows.popFront alone) rfl (.inr ⟨apart, ?_, ?_⟩), rfl,
    rfl, rfl⟩
  · rw [Links.popFront, Links.setPrevOf_prev_of_ne, before]
    rw [after]
    exact fun first => apart (List.mem_of_head? first)
  · rw [Links.popFront, Links.setPrevOf_next, after]

theorem step_unlinktail (shown : Shown ntotal q xs) (there : q.crawler ≠ .away) :
    ∃ q' ys, step ntotal q .unlinktail = .ok q' ∧ Shown ntotal q' ys ∧ reals ys = reals xs ∧
      q'.crawler = .away ∧ q'.returned = q.returned := by
  have place := shown.crawler
  have cutOut {ys zs : List (Node ι)} (split : xs = ys ++ .crawler :: zs) :
      ∃ links, doItemUnlinktailQ q.links = .ok links ∧ links.ShowsBoth (ys ++ zs) ∧
        .crawler ∉ ys ++ zs ∧ reals (ys ++ zs) = reals xs := by
    have shows := split ▸ shown.shows
    exact ⟨_, unlinkNode_eq shows, shows.unlink,
      (List.nodup_cons.mp (List.nodup_middle.mp shows.nodup)).1, by simp [split]⟩
  have leaves : ∃ ys links, doItemUnlinktailQ q.links = .ok links ∧ links.ShowsBoth ys ∧
      .crawler ∉ ys ∧ reals ys = reals xs := by
    rw [Places] at place
    cases now : q.crawler with
    | away => exact absurd now there
    | walking =>
      rw [now] at place
      obtain ⟨ys, zs, split⟩ := List.append_of_mem place
      exact ⟨_, cutOut split⟩
    | leaving =>
      rw [now] at place
      obtain alone | ⟨off, before, after⟩ := place
      · rw [← List.nil_append [Node.crawler]] at alone
        exact ⟨_, cutOut alone⟩
      · exact ⟨xs, _, unlinkNode_off shown.shows off before after,
          shown.shows.setPrevOf_head, off, rfl⟩
  obtain ⟨ys, links, unlinked, shows, off, same⟩ := leaves
  have taken : step ntotal q .unlinktail =
      .ok ⟨links, q.sizes, q.sizesBytes, q.linked, .away, q.returned⟩ := by
    rw [step]
    cases now : q.crawler with
    | away => exact absurd now there
    | walking | leaving =>
      dsimp only
      rw [unlinked]
      rfl
  exact ⟨_, ys, taken, shown.relink shows same off, same, rfl, rfl⟩

/-! ## Every step -/

/-- What the list was and what it is after a step. -/
inductive Moves (q q' : Queue ι) : Event ι → List (Node ι) → List (Node ι) → Prop
  | stay (e : Event ι) (xs : List (Node ι)) (same : q' = q) : Moves q q' e xs xs
  | link (it : ι) (xs : List (Node ι)) (crawler : q'.crawler = q.crawler)
      (returned : q'.returned = q.returned) : Moves q q' (.link it) xs (.item it :: xs)
  | unlink (it : ι) (ys zs : List (Node ι)) (crawler : q'.crawler = q.crawler)
      (returned : q'.returned = q.returned) :
      Moves q q' (.unlink it) (ys ++ .item it :: zs) (ys ++ zs)
  | linktail (xs : List (Node ι)) (crawler : q'.crawler = .walking)
      (returned : q'.returned = []) : Moves q q' .linktail xs (xs ++ [.crawler])
  | crawl (ys zs : List (Node ι)) (b : Node ι) (walking : q.crawler = .walking)
      (crawler : q'.crawler = .walking) (returned : q'.returned = q.returned ++ [b]) :
      Moves q q' .crawl (ys ++ b :: .crawler :: zs) (ys ++ .crawler :: b :: zs)
  | reached (xs zs : List (Node ι)) (crawler : q'.crawler = .leaving)
      (returned : q'.returned = q.returned) (same : reals xs = reals zs) :
      Moves q q' .crawl (.crawler :: zs) xs
  | unlinktail (xs ys : List (Node ι)) (crawler : q'.crawler = .away)
      (returned : q'.returned = q.returned) (same : reals ys = reals xs) :
      Moves q q' .unlinktail xs ys

theorem step_moves (shown : Shown ntotal q xs) (e : Event ι) :
    ∃ q' ys, step ntotal q e = .ok q' ∧ Shown ntotal q' ys ∧ Moves q q' e xs ys := by
  have stays (taken : step ntotal q e = .ok q) :
      ∃ q' ys, step ntotal q e = .ok q' ∧ Shown ntotal q' ys ∧ Moves q q' e xs ys :=
    ⟨q, xs, taken, shown, .stay e xs rfl⟩
  cases e with
  | link it =>
    by_cases idle : q.linked it ∨ q.crawler = .leaving
    · exact stays (if_pos idle)
    · obtain ⟨new, free⟩ := not_or.mp idle
      obtain ⟨q', taken, shown, crawler, returned⟩ :=
        step_link shown (Bool.eq_false_iff.mpr new) free
      exact ⟨q', _, taken, shown, .link it xs crawler returned⟩
  | unlink it =>
    by_cases idle : ¬q.linked it ∨ q.crawler = .leaving
    · exact stays (if_pos idle)
    · obtain ⟨mem, free⟩ := not_or.mp idle
      obtain ⟨q', ys, zs, taken, rfl, shown, crawler, returned⟩ :=
        step_unlink shown (not_not.mp mem) free
      exact ⟨q', _, taken, shown, .unlink it ys zs crawler returned⟩
  | linktail =>
    cases now : q.crawler with
    | away =>
      obtain ⟨q', taken, shown, crawler, returned⟩ := step_linktail shown now
      exact ⟨q', _, taken, shown, .linktail xs crawler returned⟩
    | walking | leaving => exact stays (by simp only [step, now]; rfl)
  | crawl =>
    cases now : q.crawler with
    | away => exact stays (by simp only [step, now]; rfl)
    | walking =>
      have place := shown.crawler
      rw [Places, now] at place
      obtain ⟨front, zs, rfl⟩ := List.append_of_mem place
      obtain rfl | ⟨ys, b, rfl⟩ := List.eq_nil_or_concat front
      · obtain ⟨q', ys, taken, shown, same, crawler, returned⟩ := step_crawl_head shown now
        exact ⟨q', ys, taken, shown, .reached ys zs crawler returned same⟩
      · rw [List.concat_eq_append, List.append_assoc, List.singleton_append] at *
        obtain ⟨q', taken, shown, crawler, returned⟩ := step_crawl shown now
        exact ⟨q', _, taken, shown, .crawl ys zs b now crawler returned⟩
    | leaving => exact stays (by simp only [step, now]; rfl)
  | unlinktail =>
    by_cases away : q.crawler = .away
    · exact stays (by simp only [step, away]; rfl)
    · obtain ⟨q', ys, taken, shown, same, crawler, returned⟩ := step_unlinktail shown away
      exact ⟨q', ys, taken, shown, .unlinktail xs ys crawler returned same⟩

omit [DecidableEq ι] in
/-- The crawler leaves the items in their order. -/
theorem Moves.reals_eq {e : Event ι} (moves : Moves q q' e xs ys) (crawls : e.byCrawler = true) :
    reals ys = reals xs := by
  cases moves with
  | stay | reached | unlinktail => first | rfl | assumption
  | link | unlink => cases crawls
  | linktail => simp
  | crawl ys zs b => cases b <;> simp

/-- An item is still before the crawler, or the crawler has passed it once. -/
def Awaits (it : ι) (q : Queue ι) (xs : List (Node ι)) : Prop :=
  ∃ ys zs, xs = ys ++ .crawler :: zs ∧
    (.item it ∈ ys ∧ q.returned.count (.item it) = 0 ∨
      .item it ∈ zs ∧ q.returned.count (.item it) = 1)

theorem Moves.awaits {e : Event ι} (moves : Moves q q' e xs ys) (nodup : xs.Nodup)
    (stays : e ≠ .unlink it) (begun : e ≠ .linktail) (walking : q'.crawler = .walking)
    (awaits : q.crawler = .walking → Awaits it q xs) : Awaits it q' ys := by
  cases moves with
  | stay e xs same =>
    subst same
    exact awaits walking
  | link j xs crawler returned =>
    obtain ⟨ys, zs, rfl, side⟩ := awaits (crawler ▸ walking)
    refine ⟨.item j :: ys, zs, rfl, ?_⟩
    rw [returned]
    exact side.imp (And.imp_left (List.mem_cons_of_mem _)) id
  | unlink j ys zs crawler returned =>
    obtain ⟨front, rest, split, side⟩ := awaits (crawler ▸ walking)
    have other : Node.item it ≠ .item j := fun same => stays (by cases same; rfl)
    have away : .item j ∉ ys := fun mem =>
      (List.nodup_append.mp nodup).2.2 _ mem _ List.mem_cons_self rfl
    have erased := congrArg (List.erase · (.item j)) split
    simp only [List.erase_append_right _ away, List.erase_cons_head] at erased
    rw [Awaits, returned, erased]
    by_cases mem : .item j ∈ front
    · rw [List.erase_append_left _ mem]
      refine ⟨_, rest, rfl, side.imp (And.imp_left ?_) id⟩
      exact (List.mem_erase_of_ne other).mpr
    · rw [List.erase_append_right _ mem, List.erase_cons_tail (by simp)]
      refine ⟨front, _, rfl, side.imp id (And.imp_left ?_)⟩
      exact (List.mem_erase_of_ne other).mpr
  | linktail => exact absurd rfl begun
  | crawl ys zs b before crawler returned =>
    obtain ⟨front, rest, split, side⟩ := awaits before
    have bAway := (List.nodup_cons.mp (List.nodup_middle.mp nodup)).1
    rw [← List.singleton_append, ← List.append_assoc] at split nodup
    have apart := (List.nodup_cons.mp (List.nodup_middle.mp nodup)).1
    obtain ⟨rfl, -, rfl⟩ := (List.append_cons_inj_of_notMem
      (fun mem => apart (List.mem_append_left zs mem))
      (fun mem => apart (List.mem_append_right _ mem))).mp split
    refine ⟨ys, b :: zs, rfl, ?_⟩
    rw [returned, List.count_append]
    obtain ⟨mem, none⟩ | ⟨mem, once⟩ := side
    · obtain mem | mem := List.mem_append.mp mem
      · have other : b ≠ .item it := fun same =>
          bAway (List.mem_append_left _ (same ▸ mem))
        exact .inl ⟨mem, by simp [none, other]⟩
      · obtain rfl := List.mem_singleton.mp mem
        exact .inr ⟨List.mem_cons_self, by simp [none]⟩
    · have other : b ≠ .item it := fun same =>
        bAway (List.mem_append_right _ (List.mem_cons_of_mem _ (same ▸ mem)))
      exact .inr ⟨List.mem_cons_of_mem b mem, by simp [once, other]⟩
  | reached xs zs crawler | unlinktail xs ys crawler =>
    rw [crawler] at walking
    cases walking

/-! ## Runs -/

/-- The list is well formed, and what is kept beside it is right. -/
def Exact (ntotal : ι → Nat) (q : Queue ι) : Prop := ∃ xs, Shown ntotal q xs

theorem always_exact (holds : Exact ntotal q) (events : List (Event ι)) :
    Always (step ntotal) (Exact ntotal) q events := by
  induction events generalizing q with
  | nil => exact holds
  | cons e events ih =>
    obtain ⟨xs, shown⟩ := holds
    obtain ⟨q', ys, taken, shown', -⟩ := step_moves shown e
    exact ⟨⟨xs, shown⟩, q', taken, ih ⟨ys, shown'⟩⟩

theorem moves_of_step {e : Event ι} (shown : Shown ntotal q xs)
    (taken : step ntotal q e = .ok q') : ∃ ys, Shown ntotal q' ys ∧ Moves q q' e xs ys := by
  obtain ⟨q'', ys, again, shown', moves⟩ := step_moves shown e
  rw [taken] at again
  obtain rfl := Except.ok.inj again
  exact ⟨ys, shown', moves⟩

/-- As long as the crawler walks, each item that is not unlinked awaits it or was passed. -/
theorem awaits_run {events : List (Event ι)} (shown : Shown ntotal q xs)
    (awaits : q.crawler = .walking → Awaits it q xs) (stays : .unlink it ∉ events)
    (begun : .linktail ∉ events) (ran : run (step ntotal) q events = .ok q') :
    ∃ ys, Shown ntotal q' ys ∧ (q'.crawler = .walking → Awaits it q' ys) := by
  induction events generalizing q xs with
  | nil =>
    cases ran
    exact ⟨xs, shown, awaits⟩
  | cons e events ih =>
    rw [List.mem_cons, not_or] at stays begun
    obtain ⟨middle, taken, ran⟩ := run_cons_split ran
    obtain ⟨ys, shown', moves⟩ := moves_of_step shown taken
    exact ih shown' (fun walking => moves.awaits shown.shows.nodup (Ne.symm stays.1)
      (Ne.symm begun.1) walking awaits) stays.2 begun.2 ran

/-- From the tail until there is nothing left to return, the crawler returns each item
that stays exactly once. -/
theorem returned_once {mid : List (Event ι)} {s s₁ s₂ s₃ : Queue ι} (holds : Exact ntotal s)
    (away : s.crawler = .away) (inserted : step ntotal s .linktail = .ok s₁)
    (ran : run (step ntotal) s₁ mid = .ok s₂) (walking : s₂.crawler = .walking)
    (crawled : step ntotal s₂ .crawl = .ok s₃) (done : s₃.crawler = .leaving)
    (begun : .linktail ∉ mid) (mem : s.linked it = true) (stays : .unlink it ∉ mid) :
    s₃.returned.count (.item it) = 1 := by
  obtain ⟨xs, shown⟩ := holds
  obtain ⟨s₁', again, shown₁, -, nothing⟩ := step_linktail shown away
  rw [inserted] at again
  obtain rfl := Except.ok.inj again
  have awaits : Awaits it s₁ (xs ++ [.crawler]) :=
    ⟨xs, [], rfl, .inl ⟨mem_reals.mp ((shown.linked it).mp mem), by rw [nothing, List.count_nil]⟩⟩
  obtain ⟨ys, shown₂, passed⟩ := awaits_run shown₁ (fun _ => awaits) stays begun ran
  obtain ⟨front, rest, rfl, side⟩ := passed walking
  obtain ⟨zs, -, moves⟩ := moves_of_step shown₂ crawled
  have apart := (List.nodup_cons.mp (List.nodup_middle.mp shown₂.shows.nodup)).1
  generalize split : front ++ .crawler :: rest = whole at moves
  cases moves with
  | stay _ _ same =>
    rw [same, walking] at done
    cases done
  | crawl _ _ _ _ still =>
    rw [still] at done
    cases done
  | reached _ after _ returned =>
    -- Nothing is before the crawler any more.
    cases front with
    | nil =>
      obtain ⟨absurdly, -⟩ | ⟨-, once⟩ := side
      · cases absurdly
      · rw [returned, once]
    | cons first front =>
      obtain ⟨rfl, -⟩ := List.cons_eq_cons.mp split
      exact absurd List.mem_cons_self apart

/-- The list of a class when the process starts. -/
def empty (ι : Type) : Queue ι := ⟨⟨fun _ => none, fun _ => none, none, none⟩, 0, 0,
  fun _ => false, .away, []⟩

omit [DecidableEq ι] in
theorem exact_empty : Exact ntotal (empty ι) :=
  ⟨[], ⟨⟨⟨List.nodup_nil, rfl, trivial⟩, rfl⟩, rfl, rfl, fun it => by simp [empty], by
    simp [Places, empty]⟩⟩

/-- Under every interleaving the list stays well formed and its counters right, the crawler
does not change the order of the items, and from its insertion until it is done it returns
each item that is in the list all the time exactly once. -/
theorem exact_under_crawling (ntotal : ι → Nat) (q : Queue ι) (start : Exact ntotal q)
    (events : List (Event ι)) :
    Always (step ntotal) (Exact ntotal) q events ∧
    (∀ before e after s s' xs xs', events = before ++ e :: after →
      run (step ntotal) q before = .ok s → step ntotal s e = .ok s' → e.byCrawler = true →
      s.links.ShowsBoth xs → s'.links.ShowsBoth xs' → reals xs' = reals xs) ∧
    (∀ before mid after s s₁ s₂ s₃ it,
      events = before ++ .linktail :: (mid ++ .crawl :: after) →
      run (step ntotal) q before = .ok s → s.crawler = .away →
      step ntotal s .linktail = .ok s₁ → run (step ntotal) s₁ mid = .ok s₂ →
      s₂.crawler = .walking → step ntotal s₂ .crawl = .ok s₃ → s₃.crawler = .leaving →
      .linktail ∉ mid → s.linked it = true → .unlink it ∉ mid →
      s₃.returned.count (.item it) = 1) := by
  refine ⟨always_exact start events, ?_, ?_⟩
  · intro before e after s s' xs xs' _ ran taken crawls shows shows'
    obtain ⟨ys, shown⟩ := (always_exact start before).of_run ran
    obtain ⟨ys', shown', moves⟩ := moves_of_step shown taken
    rw [shows.toShows.unique shown.shows.toShows, shows'.toShows.unique shown'.shows.toShows]
    exact moves.reals_eq crawls
  · intro before mid after s s₁ s₂ s₃ it _ ran away inserted middle walking crawled done begun
      mem stays
    exact returned_once ((always_exact start before).of_run ran) away inserted middle walking
      crawled done begun mem stays

/-- Two items are linked, and while the crawler walks a third one. -/
theorem exact_under_crawling_three : ∃ s₁ s₂ s₃ s₄,
    run (step fun _ => 1) (empty Nat) [.link 1, .link 2] = .ok s₁ ∧
      step (fun _ => 1) s₁ .linktail = .ok s₂ ∧
      run (step fun _ => 1) s₂ [.crawl, .link 3, .unlink 2, .crawl] = .ok s₃ ∧
      step (fun _ => 1) s₃ .crawl = .ok s₄ ∧ s₄.returned.count (.item 1) = 1 := by
  refine ⟨_, _, _, _, rfl, rfl, rfl, rfl, ?_⟩
  exact (exact_under_crawling (fun _ => 1) (empty Nat) exact_empty _).2.2 [.link 1, .link 2]
    [.crawl, .link 3, .unlink 2, .crawl] [] _ _ _ _ 1 rfl rfl rfl rfl rfl (by decide +kernel) rfl
    (by decide +kernel) (by decide) (by decide +kernel) (by decide)

end Queue

end Kvsev.Lru
