import Kvsev.Slabs.Pages

/-!
# Who owns a page

At every point each page is in the list of one class, and no list is longer than its
memory. While a page is moved, it stays the first one of its class, and there is a free
cell for it in the list of the class it goes to. That holds exactly if no worker takes the
free cell, and none takes the page itself out of the pool.
-/

namespace Kvsev.Slabs

open Function Memory Placed Transition

namespace Pages

variable {cfg : Settings} {s s' : Pages} {id : Nat} {page : Page} {realloc malloc : Bool}

/-- The lists of pages. -/
def boxes (s : Pages) (id : Nat) : List Page := (s.slabclass id).slabList

/-- The pages that the server has memory for. -/
def live (s : Pages) : Set Page := {page | page < s.allocated ∧ page ∉ s.released}

/-- Each page is in exactly one list, and the lists fit into their memory. -/
structure Owned (s : Pages) : Prop where
  inBoxes : InBoxes s.boxes s.live
  room : ∀ id, (s.slabclass id).slabs ≤ (s.slabclass id).listSize
  known : ∀ page ∈ s.released, page < s.allocated

/-- If the move ended now, then the page that was chosen at its start would be taken from
the source and would be stored inside the list of the destination, and nothing else would
change. -/
def Finishes (s : Pages) : Prop :=
  ∃ page rest s', s.rebal.slabStart = some page ∧ s.boxes s.rebal.sClsid = page :: rest ∧
    s.shufflePages = .ok s' ∧ s'.boxes s.rebal.sClsid = rest ∧
    s'.boxes s.rebal.dClsid = s.boxes s.rebal.dClsid ++ [page] ∧
    (s'.slabclass s.rebal.dClsid).slabs ≤ (s.slabclass s.rebal.dClsid).listSize ∧
    ∀ id, id ≠ s.rebal.sClsid → id ≠ s.rebal.dClsid → s'.slabclass id = s.slabclass id

/-- What is to hold at every point. -/
def Sound (s : Pages) : Prop := s.Owned ∧ (s.signal = .moving → s.Finishes)

/-- A request for a page that is granted. -/
def Takes (cfg : Settings) (s : Pages) (id : Nat) (realloc malloc : Bool) : Prop :=
  powerSmallest ≤ id ∧ id ≤ cfg.powerLargest ∧ limited cfg s id = false ∧
    ((s.slabclass id).slabs = (s.slabclass id).listSize → realloc = true) ∧
    (0 < (s.slabclass globalPagePool).slabs ∨ malloc = true)

/-- During a move, a worker that takes a page for the destination leaves a free cell in its
list, and one that takes a page from the pool leaves the page that is moved. -/
def Leaves (cfg : Settings) (s : Pages) : Event → Prop
  | .newslab id realloc malloc =>
    s.signal = .moving → Takes cfg s id realloc malloc →
      (id = s.rebal.dClsid → (s.slabclass id).slabs + 1 < (s.slabclass id).listSize) ∧
      (s.rebal.sClsid = globalPagePool → 2 ≤ (s.slabclass globalPagePool).slabs)
  | _ => True

instance : Decidable (Takes cfg s id realloc malloc) := inferInstanceAs (Decidable (_ ∧ _))

instance (e : Event) : Decidable (Leaves cfg s e) := by
  unfold Leaves
  split <;> infer_instance

/-! ## The functions -/

@[simp] theorem boxes_setClass (s : Pages) (id : Nat) (p : Owner) :
    (s.setClass id p).boxes = update s.boxes id p.slabList := by
  funext other
  by_cases same : other = id
  · subst same
    simp [boxes, setClass]
  · simp [boxes, setClass, same]

@[simp] theorem live_setClass (s : Pages) (id : Nat) (p : Owner) :
    (s.setClass id p).live = s.live := rfl

theorem Owned.setClass_room (owned : s.Owned) (id : Nat) {p : Owner}
    (room : p.slabs ≤ p.listSize) (other : Nat) :
    ((s.setClass id p).slabclass other).slabs ≤ ((s.setClass id p).slabclass other).listSize := by
  by_cases same : other = id
  · subst same
    simpa [setClass] using room
  · simpa [setClass, same] using owned.room other

theorem growSlabList_cases (grown : s.growSlabList id realloc = some s')
    (room : (s.slabclass id).slabs ≤ (s.slabclass id).listSize) :
    ∃ listSize, s' = s.setClass id ⟨s.boxes id, listSize⟩ ∧
      (s.slabclass id).slabs < listSize ∧
      ((s.slabclass id).slabs ≠ (s.slabclass id).listSize →
        listSize = (s.slabclass id).listSize) := by
  rw [growSlabList] at grown
  split at grown
  · rename_i full
    split at grown
    · obtain rfl := Option.some.inj grown
      refine ⟨_, rfl, ?_, fun short => absurd full short⟩
      rw [full]
      split
      · omega
      · omega
    · cases grown
  · rename_i short
    obtain rfl := Option.some.inj grown
    refine ⟨(s.slabclass id).listSize, ?_, by omega, fun _ => rfl⟩
    simp [setClass, boxes]

/-- The pool with these pages. -/
abbrev withPool (s : Pages) (rest : List Page) : Pages :=
  s.setClass globalPagePool ⟨rest, (s.slabclass globalPagePool).listSize⟩

theorem getPageFromGlobalPool_cases (got : s.getPageFromGlobalPool = some (page, s')) :
    ∃ rest, s.boxes globalPagePool = rest ++ [page] ∧ s' = s.withPool rest := by
  rw [getPageFromGlobalPool, Option.map_eq_some_iff] at got
  obtain ⟨last, found, same⟩ := got
  obtain ⟨rfl, rfl⟩ := Prod.mk.inj same
  refine ⟨_, ?_, rfl⟩
  exact (List.dropLast_append_getLast? last found).symm

theorem store_of_room (room : (s.slabclass id).slabs < (s.slabclass id).listSize) (page : Page) :
    s.store id page =
      .ok (s.setClass id ⟨s.boxes id ++ [page], (s.slabclass id).listSize⟩) := by
  rw [store]
  exact if_pos room

theorem setClass_setClass (s : Pages) (id : Nat) (p q : Owner) :
    (s.setClass id p).setClass id q = s.setClass id q := by
  simp [setClass]

theorem setClass_comm (s : Pages) {id id' : Nat} (other : id ≠ id') (p q : Owner) :
    (s.setClass id p).setClass id' q = (s.setClass id' q).setClass id p := by
  simp only [setClass]
  rw [update_comm other.symm]

/-- A page for a class whose list has a free cell comes from the pool, or is a new one. -/
theorem takePage_cases (cfg : Settings) (other : id ≠ globalPagePool)
    (room : (s.slabclass id).slabs < (s.slabclass id).listSize) (malloc : Bool) :
    (s.boxes globalPagePool = [] ∧ malloc = false ∧ s.takePage cfg id malloc = .ok s) ∨
      (∃ rest page, s.boxes globalPagePool = rest ++ [page] ∧ s.takePage cfg id malloc =
        .ok ((s.withPool rest).setClass id
          ⟨s.boxes id ++ [page], (s.slabclass id).listSize⟩)) ∨
      (s.boxes globalPagePool = [] ∧ malloc = true ∧ s.takePage cfg id malloc =
        .ok ({ s with
            allocated := s.allocated + 1
            memMalloced := s.memMalloced + cfg.slabPageSize }.setClass id
          ⟨s.boxes id ++ [s.allocated], (s.slabclass id).listSize⟩)) := by
  rw [takePage]
  cases got : s.getPageFromGlobalPool with
  | some found =>
    obtain ⟨page, taken⟩ := found
    obtain ⟨rest, pool, rfl⟩ := getPageFromGlobalPool_cases got
    refine .inr (.inl ⟨rest, page, pool, ?_⟩)
    have kept : (s.withPool rest).slabclass id = s.slabclass id := by simp [setClass, other]
    simp only
    rw [store_of_room (by rw [kept]; exact room), kept]
    simp [boxes, kept]
  | none =>
    have pool : s.boxes globalPagePool = [] := by
      rw [getPageFromGlobalPool, Option.map_eq_none_iff, List.getLast?_eq_none_iff] at got
      exact got
    cases malloc with
    | false => exact .inl ⟨pool, rfl, rfl⟩
    | true =>
      refine .inr (.inr ⟨pool, rfl, ?_⟩)
      simp only [memoryAllocate, if_true]
      exact store_of_room (s := { s with
        allocated := s.allocated + 1
        memMalloced := s.memMalloced + cfg.slabPageSize }) room s.allocated

/-- What `do_slabs_newslab` does: nothing but to grow the list, or it takes a page from the
pool, or it takes a new page. -/
theorem doSlabsNewslab_cases (cfg : Settings) (owned : s.Owned) (ordinary : powerSmallest ≤ id)
    (largest : id ≤ cfg.powerLargest) (realloc malloc : Bool) :
    ∃ listSize, ((s.slabclass id).slabs ≠ (s.slabclass id).listSize →
        listSize = (s.slabclass id).listSize) ∧
      (¬ Takes cfg s id realloc malloc ∧ (s.slabclass id).slabs ≤ listSize ∧
          s.doSlabsNewslab cfg id realloc malloc = .ok (s.setClass id ⟨s.boxes id, listSize⟩) ∨
        Takes cfg s id realloc malloc ∧ (s.slabclass id).slabs < listSize ∧
          ((∃ rest page, s.boxes globalPagePool = rest ++ [page] ∧
              s.doSlabsNewslab cfg id realloc malloc =
                .ok ((s.withPool rest).setClass id ⟨s.boxes id ++ [page], listSize⟩)) ∨
            s.boxes globalPagePool = [] ∧ s.doSlabsNewslab cfg id realloc malloc =
              .ok ({ s with
                allocated := s.allocated + 1
                memMalloced := s.memMalloced + cfg.slabPageSize }.setClass id
                  ⟨s.boxes id ++ [s.allocated], listSize⟩))) := by
  have room := owned.room id
  have unchanged : s = s.setClass id ⟨s.boxes id, (s.slabclass id).listSize⟩ := by
    simp [setClass, boxes]
  have other : id ≠ globalPagePool := Nat.ne_of_gt ordinary
  rw [doSlabsNewslab]
  cases limit : limited cfg s id with
  | true =>
    refine ⟨_, fun _ => rfl, .inl ⟨fun takes => ?_, room, ?_⟩⟩
    · rw [takes.2.2.1] at limit
      cases limit
    · rw [if_pos rfl, ← unchanged]
  | false =>
    rw [if_neg Bool.false_ne_true]
    cases grow : s.growSlabList id realloc with
    | none =>
      refine ⟨_, fun _ => rfl, .inl ⟨fun takes => ?_, room, ?_⟩⟩
      · rw [growSlabList] at grow
        split at grow
        · rename_i full
          rw [if_pos (takes.2.2.2.1 full)] at grow
          cases grow
        · cases grow
      · rw [← unchanged]
    | some grown =>
      obtain ⟨listSize, rfl, fits, same⟩ := growSlabList_cases grow room
      have granted : (s.slabclass id).slabs = (s.slabclass id).listSize → realloc = true := by
        intro full
        rw [growSlabList, if_pos full] at grow
        by_contra fails
        rw [if_neg fails] at grow
        cases grow
      have here : (s.setClass id ⟨s.boxes id, listSize⟩).slabclass id =
          ⟨s.boxes id, listSize⟩ := by simp [setClass]
      have pool : (s.setClass id ⟨s.boxes id, listSize⟩).slabclass globalPagePool =
          s.slabclass globalPagePool := by simp [setClass, other.symm]
      have boxed : (s.setClass id ⟨s.boxes id, listSize⟩).boxes = s.boxes := by
        rw [boxes_setClass]
        exact update_eq_self id s.boxes
      have cases_ := takePage_cases cfg other (s := s.setClass id ⟨s.boxes id, listSize⟩)
        (by rw [here]; exact fits) malloc
      rw [boxed, here] at cases_
      simp only [withPool, pool] at cases_
      refine ⟨listSize, same, ?_⟩
      obtain ⟨empty, fails, eq⟩ | ⟨rest, page, some_, eq⟩ | ⟨empty, works, eq⟩ := cases_
      · refine .inl ⟨fun takes => ?_, fits.le, eq⟩
        obtain some_ | works := takes.2.2.2.2
        · rw [boxes] at empty
          rw [Owner.slabs, empty] at some_
          cases some_
        · rw [works] at fails
          cases fails
      · have pos : 0 < (s.slabclass globalPagePool).slabs := by
          rw [boxes] at some_
          rw [Owner.slabs, some_, List.length_append]
          exact Nat.succ_pos _
        rw [setClass_comm s other, setClass_setClass] at eq
        exact .inr ⟨⟨ordinary, largest, limit, granted, .inl pos⟩, fits,
          .inl ⟨rest, page, some_, eq⟩⟩
      · refine .inr ⟨⟨ordinary, largest, limit, granted, .inr works⟩, fits, .inr ⟨empty, ?_⟩⟩
        refine eq.trans ?_
        simp [setClass]

/-! ## Ownership -/

theorem Owned.grow (owned : s.Owned) {listSize : Nat} (room : (s.slabclass id).slabs ≤ listSize) :
    (s.setClass id ⟨s.boxes id, listSize⟩).Owned := by
  refine ⟨?_, owned.setClass_room _ room, owned.known⟩
  rw [boxes_setClass, live_setClass, update_eq_self id s.boxes]
  exact owned.inBoxes

theorem Owned.move (owned : s.Owned) {src dst : Nat} (other : dst ≠ src) {xs ys : List Page}
    {listSize : Nat} (box : s.boxes src = xs ++ page :: ys)
    (room : (s.slabclass dst).slabs < listSize) :
    ((s.setClass src ⟨xs ++ ys, (s.slabclass src).listSize⟩).setClass dst
      ⟨s.boxes dst ++ [page], listSize⟩).Owned := by
  have shorter : (xs ++ ys).length ≤ (s.slabclass src).listSize := by
    have length := congrArg List.length box
    have fits := owned.room src
    rw [List.length_append, List.length_cons, boxes] at length
    rw [Owner.slabs] at fits
    rw [List.length_append]
    omega
  refine ⟨?_, fun id => ?_, owned.known⟩
  · rw [boxes_setClass, boxes_setClass, live_setClass, live_setClass]
    exact owned.inBoxes.move box other
  · by_cases same : id = dst
    · subst same
      simpa [setClass, Owner.slabs, boxes, Nat.succ_le_iff] using room
    · have first := owned.setClass_room src (p := ⟨xs ++ ys, (s.slabclass src).listSize⟩)
        shorter id
      simpa [setClass, same] using first

/-- A new page comes to a class. -/
theorem Owned.allocate (owned : s.Owned) {listSize memMalloced : Nat}
    (room : (s.slabclass id).slabs < listSize) :
    ({ s with allocated := s.allocated + 1, memMalloced }.setClass id
      ⟨s.boxes id ++ [s.allocated], listSize⟩).Owned := by
  have fresh : s.allocated ∉ s.live := fun mem => Nat.lt_irrefl _ mem.1
  have put := owned.inBoxes.put fresh id
  have live : ({ s with allocated := s.allocated + 1, memMalloced } : Pages).live =
      insert s.allocated s.live := by
    ext page
    have known := owned.known page
    simp only [Pages.live, Set.mem_ofPred_eq, Set.mem_insert_iff]
    constructor
    · rintro ⟨le, kept⟩
      obtain less | rfl := Nat.lt_succ_iff_lt_or_eq.mp le
      · exact .inr ⟨less, kept⟩
      · exact .inl rfl
    · rintro (rfl | ⟨less, kept⟩)
      · exact ⟨Nat.lt_succ_self _, fun mem => Nat.lt_irrefl _ (known mem)⟩
      · exact ⟨Nat.lt_succ_of_lt less, kept⟩
  refine ⟨?_, fun id' => ?_, fun page mem => Nat.lt_succ_of_lt (owned.known page mem)⟩
  · rw [boxes_setClass, live_setClass, live]
    exact put
  · by_cases same : id' = id
    · subst same
      simpa [setClass, Owner.slabs, boxes, Nat.succ_le_iff] using room
    · simpa [setClass, same] using owned.room id'

/-! ## The move -/

/-- The page that is moved is the first of its class, and there is a cell for it. -/
def Ready (s : Pages) : Prop :=
  s.rebal.sClsid ≠ s.rebal.dClsid ∧
    (∃ page rest, s.rebal.slabStart = some page ∧ s.boxes s.rebal.sClsid = page :: rest) ∧
    (s.slabclass s.rebal.dClsid).slabs < (s.slabclass s.rebal.dClsid).listSize

structure Inv (s : Pages) : Prop where
  owned : s.Owned
  ready : s.signal = .moving → s.Ready
  moving : s.rebal.done = true → s.signal = .moving

section

variable (ready : s.Ready)

include ready

theorem Ready.shufflePages :
    ∃ page rest, s.rebal.slabStart = some page ∧ s.boxes s.rebal.sClsid = page :: rest ∧
      s.shufflePages =
        .ok ((s.setClass s.rebal.sClsid ⟨rest, (s.slabclass s.rebal.sClsid).listSize⟩).setClass
          s.rebal.dClsid ⟨s.boxes s.rebal.dClsid ++ [page],
            (s.slabclass s.rebal.dClsid).listSize⟩) := by
  obtain ⟨other, ⟨page, rest, start, first⟩, room⟩ := ready
  refine ⟨page, rest, start, first, ?_⟩
  have kept : (s.setClass s.rebal.sClsid ⟨rest, (s.slabclass s.rebal.sClsid).listSize⟩).slabclass
      s.rebal.dClsid = s.slabclass s.rebal.dClsid := by
    simp [setClass, other.symm]
  rw [boxes] at first
  rw [Pages.shufflePages, first, start]
  simp only
  rw [store_of_room (by rw [kept]; exact room), kept, boxes, kept]
  rfl

theorem Ready.finishes : s.Finishes := by
  obtain ⟨page, rest, start, first, eq⟩ := ready.shufflePages
  have other := ready.1
  have room := ready.2.2
  refine ⟨page, rest, _, start, first, eq, ?_, ?_, ?_, fun id notSource notDest => ?_⟩
  · simp [other]
  · simp
  · simpa [setClass, Owner.slabs, boxes, Nat.succ_le_iff] using room
  · simp [setClass, notSource, notDest]

theorem Ready.keep (rebal : s'.rebal = s.rebal)
    (first : ∀ page rest, s.boxes s.rebal.sClsid = page :: rest →
      ∃ rest', s'.boxes s.rebal.sClsid = page :: rest')
    (room : (s'.slabclass s.rebal.dClsid).slabs < (s'.slabclass s.rebal.dClsid).listSize) :
    s'.Ready := by
  obtain ⟨other, ⟨page, rest, start, here⟩, -⟩ := ready
  obtain ⟨rest', there⟩ := first page rest here
  rw [Ready, rebal]
  exact ⟨other, ⟨page, rest', start, there⟩, room⟩

theorem Ready.cell {listSize : Nat} {slabList : List Page}
    (same : (s.slabclass id).slabs ≠ (s.slabclass id).listSize →
      listSize = (s.slabclass id).listSize)
    (left : id = s.rebal.dClsid → slabList.length < (s.slabclass id).listSize) :
    ((s.setClass id ⟨slabList, listSize⟩).slabclass s.rebal.dClsid).slabs <
      ((s.setClass id ⟨slabList, listSize⟩).slabclass s.rebal.dClsid).listSize := by
  have room := ready.2.2
  by_cases dest : s.rebal.dClsid = id
  · subst dest
    rw [same (Nat.ne_of_lt room)]
    simpa [setClass, Owner.slabs] using left rfl
  · simpa [setClass, dest] using room

theorem Ready.come {listSize : Nat}
    (same : (s.slabclass id).slabs ≠ (s.slabclass id).listSize →
      listSize = (s.slabclass id).listSize)
    (left : id = s.rebal.dClsid → (s.slabclass id).slabs + 1 < (s.slabclass id).listSize)
    (page : Page) : (s.setClass id ⟨s.boxes id ++ [page], listSize⟩).Ready := by
  refine ready.keep rfl (fun moved others here => ?_) (ready.cell same fun dest => ?_)
  · by_cases source : s.rebal.sClsid = id
    · refine ⟨others ++ [page], ?_⟩
      rw [source] at here
      simp [source, here]
    · refine ⟨others, ?_⟩
      rw [boxes_setClass, update_of_ne source]
      exact here
  · rw [List.length_append]
    exact left dest

/-- The last page leaves the pool, and it is not the one that is moved. -/
theorem Ready.leave (owned : s.Owned) {rest : List Page}
    (pool : s.boxes globalPagePool = rest ++ [page])
    (stays : s.rebal.sClsid = globalPagePool → 2 ≤ (s.slabclass globalPagePool).slabs) :
    (s.withPool rest).Ready := by
  have length : (s.slabclass globalPagePool).slabs = rest.length + 1 := by
    have length := congrArg List.length pool
    rwa [List.length_append, List.length_singleton] at length
  refine ready.keep rfl (fun moved others here => ?_) (ready.cell (fun _ => rfl) fun _ => ?_)
  · by_cases source : s.rebal.sClsid = globalPagePool
    · have two := stays source
      rw [source, pool] at here
      cases rest with
      | nil =>
        rw [length] at two
        exact absurd two (by simp)
      | cons first rest =>
        obtain ⟨rfl, -⟩ := List.cons.inj here
        exact ⟨rest, by simp [source]⟩
    · exact ⟨others, by simp [source, here]⟩
  · have room := owned.room globalPagePool
    omega

end

/-- A worker that leaves the cell and the page alone keeps the invariant. -/
theorem inv_newslab (inv : s.Inv) (ordinary : powerSmallest ≤ id) (largest : id ≤ cfg.powerLargest)
    (leaves : Leaves cfg s (.newslab id realloc malloc)) :
    ∃ s', s.doSlabsNewslab cfg id realloc malloc = .ok s' ∧ s'.Inv := by
  have other : id ≠ globalPagePool := Nat.ne_of_gt ordinary
  obtain ⟨listSize, same, ⟨-, fits, eq⟩ | ⟨takes, fits, ⟨rest, page, pool, eq⟩ | ⟨pool, eq⟩⟩⟩ :=
    doSlabsNewslab_cases cfg inv.owned ordinary largest realloc malloc
  · refine ⟨_, eq, inv.owned.grow fits, fun moving => ?_, inv.moving⟩
    have ready := inv.ready moving
    refine ready.keep rfl ?_ (ready.cell same fun dest => ?_)
    · rw [boxes_setClass, update_eq_self id s.boxes]
      exact fun page rest here => ⟨rest, here⟩
    · rw [dest]
      exact ready.2.2
  · refine ⟨_, eq, ?_, fun moving => ?_, inv.moving⟩
    · have moved := inv.owned.move other pool fits
      rwa [List.append_nil] at moved
    · obtain ⟨cell, stays⟩ := leaves moving takes
      have left := (inv.ready moving).leave inv.owned pool stays
      have kept : (s.withPool rest).slabclass id = s.slabclass id := by simp [setClass, other]
      rw [← kept] at same cell
      have come := left.come same cell page
      rwa [boxes, kept] at come
  · refine ⟨_, eq, inv.owned.allocate fits, fun moving => ?_, inv.moving⟩
    obtain ⟨cell, -⟩ := leaves moving takes
    exact (inv.ready moving).come same cell s.allocated

theorem reassignPickAny_frame (cfg : Settings) (s : Pages) (dst : Int) (tries : Nat) :
    ∃ cur, (s.reassignPickAny cfg dst tries).1 = { s with cur } := by
  induction tries generalizing s with
  | zero => exact ⟨s.cur, rfl⟩
  | succ tries ih =>
    rw [reassignPickAny]
    simp only
    split
    · exact ih _
    split
    · exact ⟨_, rfl⟩
    · exact ih _

theorem inv_reassign (inv : s.Inv) (src dst : Int) : (s.doSlabsReassign cfg src dst).2.Inv := by
  obtain ⟨⟨inBoxes, room, known⟩, ready, moving⟩ := inv
  rw [doSlabsReassign]
  split
  · exact ⟨⟨inBoxes, room, known⟩, ready, moving⟩
  rename_i idle
  have idle : s.signal = .idle := of_not_not idle
  have undone : s.rebal.done = true → False := by
    intro done
    rw [moving done] at idle
    cases idle
  split
  · exact ⟨⟨inBoxes, room, known⟩, ready, moving⟩
  -- Only the static variable has changed when the request is looked at.
  have frame : ∃ cur, (if src = -1 then
      s.reassignPickAny cfg dst (cfg.powerLargest - powerSmallest + 1) else (s, src)).1 =
      { s with cur } := by
    split
    · exact reassignPickAny_frame cfg s dst _
    · exact ⟨s.cur, rfl⟩
  generalize (if src = -1 then
    s.reassignPickAny cfg dst (cfg.powerLargest - powerSmallest + 1)
    else (s, src)) = pair at frame ⊢
  obtain ⟨s', src⟩ := pair
  obtain ⟨cur, rfl : s' = _⟩ := frame
  simp only
  split
  · exact ⟨⟨inBoxes, room, known⟩, ready, moving⟩
  split
  · exact ⟨⟨inBoxes, room, known⟩, ready, moving⟩
  · exact ⟨⟨inBoxes, room, known⟩, nofun, fun done => (undone done).elim⟩

theorem inv_start (inv : s.Inv) (requested : s.signal = .requested) (realloc : Bool) :
    (s.slabRebalanceStart cfg realloc).Inv := by
  have undone : s.rebal.done = true → False := by
    intro done
    rw [inv.moving done] at requested
    cases requested
  rw [slabRebalanceStart]
  cases grow : s.growSlabList s.rebal.dClsid realloc with
  | none =>
    simp only [Option.isNone_none, true_or, or_true, if_true, Option.getD_none]
    exact ⟨⟨inv.owned.inBoxes, inv.owned.room, inv.owned.known⟩, nofun,
      fun done => (undone done).elim⟩
  | some grown =>
    obtain ⟨listSize, rfl, fits, -⟩ := growSlabList_cases grow (inv.owned.room _)
    obtain ⟨inBoxes, room, known⟩ := inv.owned.grow fits.le
    simp only [Option.getD_some]
    split
    · exact ⟨⟨inBoxes, room, known⟩, nofun, fun done => (undone done).elim⟩
    rename_i go
    simp only [Option.isNone_some, Bool.false_eq_true, false_or, not_or, not_not,
      Nat.not_lt] at go
    obtain ⟨⟨-, -, other⟩, two⟩ := go
    refine ⟨⟨inBoxes, room, known⟩, fun _ => ⟨other, ?_, ?_⟩, fun _ => rfl⟩
    · obtain ⟨page, rest, list⟩ := List.exists_cons_of_length_pos (Nat.zero_lt_two.trans_le two)
      exact ⟨page, rest, congrArg List.head? list, list⟩
    · simpa [setClass, Owner.slabs, boxes] using fits

/-- The last page of the pool is given back. -/
theorem Owned.release (owned : s.Owned) {rest : List Page} {memMalloced : Nat}
    (pool : s.boxes globalPagePool = rest ++ [page]) :
    ({ s.withPool rest with released := page :: s.released, memMalloced } : Pages).Owned := by
  have mem : page ∈ s.live := (owned.inBoxes.mem page).mpr ⟨globalPagePool, by rw [pool]; simp⟩
  have shorter : rest.length ≤ (s.slabclass globalPagePool).listSize := by
    have length := congrArg List.length pool
    have fits := owned.room globalPagePool
    rw [List.length_append, boxes] at length
    rw [Owner.slabs] at fits
    omega
  have taken := owned.inBoxes.take pool
  rw [List.append_nil, ← boxes_setClass s globalPagePool
    ⟨rest, (s.slabclass globalPagePool).listSize⟩] at taken
  refine ⟨?_, owned.setClass_room _ shorter, fun other released => ?_⟩
  · have live : ({ s.withPool rest with
        released := page :: s.released, memMalloced } : Pages).live = s.live \ {page} := by
      ext other
      simp only [Pages.live, setClass, Set.mem_ofPred_eq, List.mem_cons, not_or, Set.mem_sdiff,
        Set.mem_singleton_iff]
      exact ⟨fun ⟨less, new, kept⟩ => ⟨⟨less, kept⟩, new⟩, fun ⟨⟨less, kept⟩, new⟩ =>
        ⟨less, new, kept⟩⟩
    rw [live]
    exact taken
  · obtain rfl | before := List.mem_cons.mp released
    · exact mem.1
    · exact owned.known other before

theorem Owned.memoryReleaseLoop (owned : s.Owned) (rounds : Nat) :
    (memoryReleaseLoop cfg rounds s).Owned := by
  induction rounds generalizing s with
  | zero => exact owned
  | succ rounds ih =>
    rw [Pages.memoryReleaseLoop]
    split
    · cases got : s.getPageFromGlobalPool with
      | none => exact owned
      | some found =>
        obtain ⟨page, taken⟩ := found
        obtain ⟨rest, pool, rfl⟩ := getPageFromGlobalPool_cases got
        exact ih (owned.release pool)
    · exact owned

theorem inv_finish (inv : s.Inv) (done : s.rebal.done = true) :
    ∃ s', s.slabRebalanceFinish cfg = .ok s' ∧ s'.Inv := by
  have ready := inv.ready (inv.moving done)
  obtain ⟨page, rest, -, first, eq⟩ := ready.shufflePages
  rw [← List.nil_append (page :: rest)] at first
  have moved := inv.owned.move ready.1.symm first ready.2.2
  rw [List.nil_append] at moved
  rw [slabRebalanceFinish, eq]
  refine ⟨_, rfl, ?_, nofun, nofun⟩
  have released : ∀ {s : Pages}, s.Owned →
      (if s.rebal.dClsid = globalPagePool then s.memoryRelease cfg else s).Owned := by
    intro s owned
    split
    · rw [memoryRelease]
      split
      · exact owned
      · exact owned.memoryReleaseLoop _
    · exact owned
  obtain ⟨inBoxes, room, known⟩ := released moved
  exact ⟨inBoxes, room, known⟩

theorem step_returns (inv : s.Inv) {e : Event} (leaves : Leaves cfg s e) :
    ∃ s', step cfg s e = .ok s' ∧ s'.Inv := by
  cases e with
  | newslab id realloc malloc =>
    rw [step]
    split
    · exact ⟨s, rfl, inv⟩
    · rename_i range
      rw [not_or, Nat.not_lt, Nat.not_lt] at range
      exact inv_newslab inv range.1 range.2 leaves
  | reassign src dst => exact ⟨_, rfl, inv_reassign inv src dst⟩
  | start realloc =>
    refine ⟨_, rfl, ?_⟩
    split
    · rename_i requested
      exact inv_start inv requested realloc
    · exact inv
  | move clear =>
    refine ⟨_, rfl, ?_⟩
    split
    · rename_i go
      exact ⟨⟨inv.owned.inBoxes, inv.owned.room, inv.owned.known⟩, inv.ready, fun _ => go.1⟩
    · exact inv
  | finish =>
    rw [step]
    split
    · rename_i done
      exact inv_finish inv done
    · exact ⟨s, rfl, inv⟩

/-- No step leaves the memory of a list as long as the move can end well. -/
theorem step_total (inv : s.Inv) {e : Event} : ∃ s', step cfg s e = .ok s' := by
  cases e with
  | newslab id realloc malloc =>
    rw [step]
    split
    · exact ⟨s, rfl⟩
    rename_i range
    rw [not_or, Nat.not_lt, Nat.not_lt] at range
    obtain ⟨_, -, ⟨-, -, eq⟩ | ⟨-, -, ⟨_, _, -, eq⟩ | ⟨-, eq⟩⟩⟩ :=
      doSlabsNewslab_cases cfg inv.owned range.1 range.2 realloc malloc
    all_goals exact ⟨_, eq⟩
  | reassign src dst | start realloc | move clear => exact ⟨_, rfl⟩
  | finish =>
    have leaves : Leaves cfg s .finish := trivial
    obtain ⟨s', stepped, -⟩ := step_returns inv leaves
    exact ⟨s', stepped⟩

theorem Inv.sound (inv : s.Inv) : s.Sound := ⟨inv.owned, fun moving => (inv.ready moving).finishes⟩

/-- A page that came to the destination has left a cell. -/
theorem Finishes.cell {slabList : List Page} {listSize : Nat}
    (finishes : (s.setClass id ⟨slabList, listSize⟩).Finishes) (dest : id = s.rebal.dClsid) :
    slabList.length < listSize := by
  obtain ⟨page, rest, s', -, -, -, -, stored, inside, -⟩ := finishes
  subst dest
  have length := congrArg List.length stored
  simp only [setClass, boxes, update_self, List.length_append, List.length_singleton,
    Owner.slabs] at length inside
  omega

/-- Where a worker takes the cell or the page itself, the move cannot end well. -/
theorem leaves_of_sound (inv : s.Inv) {e : Event} (stepped : step cfg s e = .ok s')
    (sound : s'.Sound) : Leaves cfg s e := by
  cases e with
  | newslab id realloc malloc =>
    intro moving takes
    have ready := inv.ready moving
    have other : id ≠ globalPagePool := Nat.ne_of_gt takes.1
    have range : ¬ (id < powerSmallest ∨ cfg.powerLargest < id) := by
      rw [not_or, Nat.not_lt, Nat.not_lt]
      exact ⟨takes.1, takes.2.1⟩
    rw [step, if_neg range] at stepped
    obtain ⟨listSize, same, ⟨fails, -⟩ | ⟨-, -, ⟨rest, page, pool, eq⟩ | ⟨pool, eq⟩⟩⟩ :=
      doSlabsNewslab_cases cfg inv.owned takes.1 takes.2.1 realloc malloc
    · exact absurd takes fails
    · rw [eq] at stepped
      obtain rfl := Except.ok.inj stepped
      have finishes := sound.2 moving
      refine ⟨fun dest => ?_, fun source => ?_⟩
      · have cell := finishes.cell dest
        rw [same (by rw [dest]; exact Nat.ne_of_lt ready.2.2), List.length_append] at cell
        exact cell
      · obtain ⟨moved, others, -, -, first, -⟩ := finishes
        have length := congrArg List.length pool
        rw [boxes_setClass, boxes_setClass] at first
        simp only [setClass, source, update_of_ne other.symm, update_self]
          at first
        rw [first, List.length_append, List.length_cons] at length
        exact (Nat.le_add_left 2 _).trans_eq length.symm
    · rw [eq] at stepped
      obtain rfl := Except.ok.inj stepped
      have finishes := sound.2 moving
      refine ⟨fun dest => ?_, fun source => ?_⟩
      · have cell := Finishes.cell finishes dest
        rw [same (by rw [dest]; exact Nat.ne_of_lt ready.2.2), List.length_append] at cell
        exact cell
      · obtain ⟨-, ⟨moved, others, -, first⟩, -⟩ := ready
        rw [source, pool] at first
        cases first
  | reassign src dst | start realloc | move clear | finish => trivial

/-- For every interleaving of page requests and page moves: no step leaves the memory of a
list, at every point each page is in exactly one list, no list is longer than its memory,
and a move takes the page that was chosen at its start from the source and stores it
inside the list of the destination, exactly if no worker takes the page that is moved or
the last free cell of the list it goes to. -/
theorem pages_owned_iff (cfg : Settings) (owned : s.Owned) (idle : s.signal = .idle)
    (undone : s.rebal.done = false) (events : List Event) :
    Always (step cfg) Sound s events ↔ Meets (step cfg) (Leaves cfg) s events := by
  have start : s.Inv := by
    refine ⟨owned, fun moving => ?_, fun done => ?_⟩
    · rw [idle] at moving
      cases moving
    · rw [undone] at done
      cases done
  constructor
  · intro always
    refine (throughout_iff_meets (I := Inv) (P := Sound) ?_ ?_ ?_ ?_ start).mp always.throughout
    · exact fun s e inv => step_total inv
    · exact fun s inv => inv.sound
    · intro s e s' inv leaves stepped
      obtain ⟨s₁, again, next⟩ := step_returns inv leaves
      rw [again] at stepped
      obtain rfl := Except.ok.inj stepped
      exact next
    · exact fun s e s' inv stepped sound => leaves_of_sound inv stepped sound
  · intro meets
    exact (always_of_invariant (P := Inv) (fun s e inv leaves => step_returns inv leaves) start
      meets).mono fun s inv => inv.sound

/-- A server that has just been started. -/
def empty : Pages where
  slabclass _ := ⟨[], 0⟩
  memMalloced := 0
  allocated := 0
  released := []
  signal := .idle
  rebal := ⟨0, 0, none, false⟩
  cur := 0

theorem owned_empty : empty.Owned := by
  refine ⟨?_, fun _ => Nat.le_refl 0, nofun⟩
  have none : empty.live = ∅ := by
    ext page
    simp [live, empty]
  rw [none]
  exact InBoxes.empty

/-- Two classes with a few pages each. -/
def manyPages (first second : Nat) : List Event :=
  List.replicate first (.newslab 1 true true) ++ List.replicate second (.newslab 2 true true)

/-- A move during which a worker takes a page for the destination and leaves a cell. -/
theorem pages_owned_iff_sample :
    Always (step ⟨2, 65536, 1024, false⟩) Sound empty
      (manyPages 2 3 ++ [.reassign 1 2, .start true, .newslab 2 true true, .move true, .finish]) :=
  (pages_owned_iff _ owned_empty rfl rfl _).mpr (by decide +kernel)

/-- A worker takes the last cell of the destination, and the page is written behind its list.
A worker takes the page that is moved out of the pool, and the number of pages there wraps
around. -/
theorem cell_taken :
    run (step ⟨2, 65536, 1024, false⟩) empty
        (manyPages 2 15 ++
          [.reassign 1 2, .start true, .newslab 2 true true, .move true, .finish]) =
      .error .invalidAccess ∧
    run (step ⟨2, 65536, 1024, false⟩) empty
        (manyPages 3 1 ++
          [.reassign 1 0, .start true, .move true, .finish,
            .reassign 1 0, .start true, .move true, .finish,
            .reassign 0 2, .start true, .newslab 1 true true, .newslab 1 true true, .finish]) =
      .error .invalidAccess := by
  have traps {x : Exec Pages} (observed : x.map (fun _ => ()) = .error .invalidAccess) :
      x = .error .invalidAccess := by
    cases x with
    | ok s => cases observed
    | error e =>
      cases observed
      rfl
  exact ⟨traps (by decide +kernel), traps (by decide +kernel)⟩

end Pages

end Kvsev.Slabs
