import Kvsev.Memory.Bytes
import Kvsev.Transition.Run

/-!
# The pool of virtual machines of a client thread

With `SEVAULT` each thread owns `MAX_VM / num_threads` machines. A set uses up one
of them: the worker deactivates its handle, and after the last one flushes the
caches and launches the whole pool again (`vm_init`, `client_worker`).

The log records what is asked of the firmware, by slot of the pool. A failed SEV
command ends the process, so a log only has commands that succeeded.
-/

namespace Kvsev.Client.Pool

open Memory Transition

/-- `MAX_VM` -/
def maxVm : Nat := 32

inductive VmEvent where
  | init (slot : Nat)
  | create (slot handle : Nat)
  | update (slot : Nat)
  | measure (slot : Nat)
  | finish (slot : Nat)
  /-- The handle in this slot is deactivated. -/
  | deactivate (slot handle : Nat)
  | wbinvd
  deriving DecidableEq, Repr

/-- The arrays of one thread, its counter, and the log with the latest event first. -/
structure Worker where
  vmfd : Block Nat
  vcpufd : Block Nat
  handle : Block Nat
  mem : Block Nat
  vmCount : Int
  log : List VmEvent

/-- What the system returns for one machine. -/
structure Made where
  vmfd : Nat
  vcpufd : Nat
  handle : Nat
  mem : Nat

/-- The first loop of `vm_init` for one machine. -/
def prepareVm (made : Nat → Made) (j : Nat) (w : Worker) : Exec Worker := do
  let vmfd ← w.vmfd.set j (made j).vmfd
  let vcpufd ← w.vcpufd.set j (made j).vcpufd
  let handle ← w.handle.set j (made j).handle
  let mem ← w.mem.set j (made j).mem
  return { w with vmfd, vcpufd, handle, mem, log := .create j (made j).handle :: .init j :: w.log }

/-- The commands that end a launch. -/
def finishVm (j : Nat) (w : Worker) : Exec Worker := do
  let _ ← w.vmfd.get j
  let _ ← w.mem.get j
  return { w with log := .finish j :: .measure j :: .update j :: w.log }

/-- `vm_init`, as far as it concerns one thread. `malloc` returns arbitrary memory. -/
def vmInit (numThreads : Nat) (fresh : Nat → Nat) (made : Nat → Made) : Exec Worker := do
  let arrays : Block Nat := ⟨maxVm / numThreads, fresh⟩
  let w ← Exec.forRange (maxVm / numThreads) (prepareVm made)
    { vmfd := arrays, vcpufd := arrays, handle := arrays, mem := arrays, vmCount := 0, log := [] }
  Exec.forRange (maxVm / numThreads) finishVm w

/-- The body of the loop in `client_worker` that launches the pool again. -/
def relaunchVm (made : Nat → Made) (j : Nat) (w : Worker) : Exec Worker := do
  let _ ← w.vcpufd.get j
  let vcpufd ← w.vcpufd.set j (made j).vcpufd
  let handle ← w.handle.set j (made j).handle
  finishVm j { w with vcpufd, handle, log := .create j (made j).handle :: .init j :: w.log }

/-- One request of `client_worker`. A get leaves the machines alone. -/
inductive Op where
  | get
  | set (made : Nat → Made)

/-- The part of `client_worker` under `SEVAULT`, for one request. -/
def serve (numThreads : Nat) (w : Worker) : Op → Exec Worker
  | .get => return w
  | .set made => do
    -- a negative index is outside the array as well
    let handle ← if 0 ≤ w.vmCount then w.handle.get w.vmCount.toNat else throw .invalidAccess
    let w := { w with log := .deactivate w.vmCount.toNat handle :: w.log }
    if w.vmCount = (maxVm / numThreads : Nat) - (1 : Int) then
      let w := { w with log := .wbinvd :: w.log }
      let w ← Exec.forRange (maxVm / numThreads) (relaunchVm made) w
      return { w with vmCount := 0 }
    else return { w with vmCount := w.vmCount + 1 }

/-- A thread from its initialisation through its requests. -/
def work (numThreads : Nat) (fresh : Nat → Nat) (made : Nat → Made) (ops : List Op) :
    Exec Worker := do
  let w ← vmInit numThreads fresh made
  run (serve numThreads) w ops

/-! ## The discipline -/

/-- How far the machine of a slot is. -/
inductive Phase where
  | unused
  | created (handle : Nat)
  | launched (handle : Nat)
  | spent
  deriving DecidableEq, Repr

/-- The phase of a slot after a log: a launch goes from the creation of a handle to
its `finish`, and a deactivation ends it. -/
def phase (j : Nat) : List VmEvent → Phase
  | [] => .unused
  | .create i handle :: log => if i = j then .created handle else phase j log
  | .finish i :: log =>
    if i = j then
      match phase j log with
      | .created handle => .launched handle
      | other => other
    else phase j log
  | .deactivate i _ :: log => if i = j then .spent else phase j log
  | .init _ :: log | .update _ :: log | .measure _ :: log | .wbinvd :: log => phase j log

/-- How often a slot was deactivated since the pool was last relaunched. -/
def uses (j : Nat) : List VmEvent → Nat
  | [] => 0
  | .wbinvd :: _ => 0
  | .deactivate i _ :: log => (if i = j then 1 else 0) + uses j log
  | .init _ :: log | .create _ _ :: log | .update _ :: log | .measure _ :: log
  | .finish _ :: log => uses j log

/-- Every handle that is deactivated belongs to a machine launched since its slot
was last deactivated, and each machine is deactivated once before the pool is
relaunched. -/
def Disciplined (size : Nat) : List VmEvent → Prop
  | [] => True
  | .deactivate j handle :: log => phase j log = .launched handle ∧ Disciplined size log
  | .wbinvd :: log => (∀ j < size, uses j log = 1) ∧ Disciplined size log
  | .init _ :: log | .create _ _ :: log | .update _ :: log | .measure _ :: log
  | .finish _ :: log => Disciplined size log

/-! ## Launching -/

variable {size : Nat} {w w' : Worker} {made : Nat → Made}

/-- The arrays have the allocated length. -/
structure Worker.Sized (size : Nat) (w : Worker) : Prop where
  vmfd : w.vmfd.size = size
  vcpufd : w.vcpufd.size = size
  handle : w.handle.size = size
  mem : w.mem.size = size

/-- Every machine from `first` on is launched and unused, those before it were used
once since the last relaunch. -/
structure Worker.Ready (size first : Nat) (w : Worker) : Prop where
  sized : w.Sized size
  count : w.vmCount = first
  launched : ∀ j < size, first ≤ j → phase j w.log = .launched (w.handle.cell j)
  uses : ∀ j < size, uses j w.log = if j < first then 1 else 0
  disciplined : Disciplined size w.log

/-- The events of a launch do not touch the other slots, nor any count. -/
theorem phase_prepare {i j handle : Nat} (other : i ≠ j) (log : List VmEvent) :
    phase j (.create i handle :: .init i :: log) = phase j log := by
  simp [phase, other]

theorem phase_finish {i j : Nat} (other : i ≠ j) (log : List VmEvent) :
    phase j (.finish i :: .measure i :: .update i :: log) = phase j log := by
  simp [phase, other]

theorem phase_finish_self {j handle : Nat} {log : List VmEvent}
    (created : phase j log = .created handle) :
    phase j (.finish j :: .measure j :: .update j :: log) = .launched handle := by
  simp [phase, created]

namespace Worker.Sized

theorem prepareVm {k : Nat} (sized : w.Sized size) (lt : k < size) (made : Nat → Made) :
    ∃ w', prepareVm made k w = .ok w' ∧ w'.Sized size ∧ w'.vmCount = w.vmCount ∧
      w'.log = .create k (made k).handle :: .init k :: w.log ∧
      w'.handle = w.handle.put k (made k).handle := by
  refine ⟨{ w with
      vmfd := w.vmfd.put k (made k).vmfd, vcpufd := w.vcpufd.put k (made k).vcpufd
      handle := w.handle.put k (made k).handle, mem := w.mem.put k (made k).mem
      log := .create k (made k).handle :: .init k :: w.log }, ?_,
    ⟨sized.vmfd, sized.vcpufd, sized.handle, sized.mem⟩, rfl, rfl, rfl⟩
  have vmfd := Block.set_of_lt (b := w.vmfd) (sized.vmfd ▸ lt)
  have vcpufd := Block.set_of_lt (b := w.vcpufd) (sized.vcpufd ▸ lt)
  have handle := Block.set_of_lt (b := w.handle) (sized.handle ▸ lt)
  have mem := Block.set_of_lt (b := w.mem) (sized.mem ▸ lt)
  simp [Pool.prepareVm, vmfd, vcpufd, handle, mem]

theorem finishVm {k : Nat} (sized : w.Sized size) (lt : k < size) :
    finishVm k w = .ok { w with log := .finish k :: .measure k :: .update k :: w.log } := by
  have vmfd := Block.get_of_lt (b := w.vmfd) (sized.vmfd ▸ lt)
  have mem := Block.get_of_lt (b := w.mem) (sized.mem ▸ lt)
  simp [Pool.finishVm, vmfd, mem]

theorem relaunchVm {k : Nat} (sized : w.Sized size) (lt : k < size) (made : Nat → Made) :
    ∃ w', relaunchVm made k w = .ok w' ∧ w'.Sized size ∧ w'.vmCount = w.vmCount ∧
      w'.log = .finish k :: .measure k :: .update k :: .create k (made k).handle :: .init k ::
        w.log ∧
      w'.handle = w.handle.put k (made k).handle := by
  let again : Worker := { w with
    vcpufd := w.vcpufd.put k (made k).vcpufd, handle := w.handle.put k (made k).handle
    log := .create k (made k).handle :: .init k :: w.log }
  have sized' : again.Sized size := ⟨sized.vmfd, sized.vcpufd, sized.handle, sized.mem⟩
  have closed := Block.get_of_lt (b := w.vcpufd) (sized.vcpufd ▸ lt)
  have vcpufd := Block.set_of_lt (b := w.vcpufd) (sized.vcpufd ▸ lt)
  have handle := Block.set_of_lt (b := w.handle) (sized.handle ▸ lt)
  refine ⟨{ again with log := .finish k :: .measure k :: .update k :: again.log }, ?_,
    ⟨sized.vmfd, sized.vcpufd, sized.handle, sized.mem⟩, rfl, rfl, rfl⟩
  simp only [Pool.relaunchVm, closed, vcpufd, handle, Exec.ok_bind]
  exact sized'.finishVm lt

end Worker.Sized

theorem vmInit_ready (numThreads : Nat) (fresh : Nat → Nat) (made : Nat → Made) :
    ∃ w, vmInit numThreads fresh made = .ok w ∧ w.Ready (maxVm / numThreads) 0 := by
  let size := maxVm / numThreads
  let arrays : Block Nat := ⟨size, fresh⟩
  have start : ∃ w, Exec.forRange size (prepareVm made)
      { vmfd := arrays, vcpufd := arrays, handle := arrays, mem := arrays, vmCount := 0,
        log := [] } = .ok w ∧ w.Sized size ∧ w.vmCount = 0 ∧
      (∀ j < size, phase j w.log = .created (w.handle.cell j)) ∧ (∀ j, uses j w.log = 0) ∧
      Disciplined size w.log := by
    refine Exec.forRange_rule (fun k (w : Worker) => w.Sized size ∧ w.vmCount = 0 ∧
      (∀ j < k, phase j w.log = .created (w.handle.cell j)) ∧ (∀ j, uses j w.log = 0) ∧
      Disciplined size w.log) ⟨⟨rfl, rfl, rfl, rfl⟩, rfl, nofun, fun _ => rfl, trivial⟩ ?_
    rintro k w lt ⟨sized, count, created, unused, disciplined⟩
    obtain ⟨w', ran, sized', count', log, handle⟩ := sized.prepareVm lt made
    refine ⟨w', ran, sized', count'.trans count, fun j below => ?_, fun j => ?_, ?_⟩
    · rw [log, handle]
      by_cases last : j = k
      · subst last
        rw [Block.put_cell_self]
        simp [phase]
      · rw [phase_prepare (Ne.symm last), Block.put_cell_of_ne last]
        exact created j (by omega)
    · rw [log]
      exact unused j
    · rw [log]
      exact disciplined
  obtain ⟨w, ran, sized, count, created, unused, disciplined⟩ := start
  have finish : ∃ w', Exec.forRange size finishVm w = .ok w' ∧ w'.Sized size ∧ w'.vmCount = 0 ∧
      w'.handle = w.handle ∧
      (∀ j < size, phase j w'.log =
        if j < size then .launched (w.handle.cell j) else .created (w.handle.cell j)) ∧
      (∀ j, uses j w'.log = 0) ∧ Disciplined size w'.log := by
    refine Exec.forRange_rule (fun k (w' : Worker) => w'.Sized size ∧ w'.vmCount = 0 ∧
      w'.handle = w.handle ∧
      (∀ j < size, phase j w'.log =
        if j < k then .launched (w.handle.cell j) else .created (w.handle.cell j)) ∧
      (∀ j, uses j w'.log = 0) ∧ Disciplined size w'.log)
      ⟨sized, count, rfl, by simpa using created, unused, disciplined⟩ ?_
    rintro k w' lt ⟨sized, count, handle, phases, unused, disciplined⟩
    refine ⟨_, sized.finishVm lt, ⟨sized.vmfd, sized.vcpufd, sized.handle, sized.mem⟩, count,
      handle, fun j below => ?_, unused, disciplined⟩
    by_cases last : j = k
    · subst last
      rw [if_pos (Nat.lt_succ_self j)]
      apply phase_finish_self
      rw [phases j below, if_neg (Nat.lt_irrefl j)]
    · have same : j < k ↔ j < k + 1 := by omega
      rw [phase_finish (Ne.symm last), phases j below]
      simp only [same]
  obtain ⟨w', ran', sized', count', handle, phases, unused', disciplined'⟩ := finish
  refine ⟨w', ?_, sized', count', fun j lt _ => ?_, fun j _ => unused' j, disciplined'⟩
  · rw [vmInit]
    exact Exec.bind_eq_ok.mpr ⟨w, ran, ran'⟩
  · rw [phases j lt, if_pos lt, handle]

/-- Launching the whole pool again. -/
theorem relaunch_ready (sized : w.Sized size) (disciplined : Disciplined size w.log)
    (unused : ∀ j, uses j w.log = 0) (made : Nat → Made) :
    ∃ w', Exec.forRange size (relaunchVm made) w = .ok w' ∧
      Worker.Ready size 0 { w' with vmCount := 0 } := by
  obtain ⟨w', ran, sized', launched, unused', disciplined'⟩ := Exec.forRange_rule
    (fun k (w' : Worker) => w'.Sized size ∧
      (∀ j < k, phase j w'.log = .launched (w'.handle.cell j)) ∧ (∀ j, uses j w'.log = 0) ∧
      Disciplined size w'.log) ⟨sized, nofun, unused, disciplined⟩
    (show ∀ k t, k < size → _ → ∃ t', relaunchVm made k t = .ok t' ∧ _ by
      rintro k t lt ⟨sized, launched, unused, disciplined⟩
      obtain ⟨t', ran, sized', -, log, handle⟩ := sized.relaunchVm lt made
      refine ⟨t', ran, sized', fun j below => ?_, fun j => ?_, ?_⟩
      · rw [log, handle]
        by_cases last : j = k
        · subst last
          rw [Block.put_cell_self]
          exact phase_finish_self (by simp [phase])
        · rw [phase_finish (Ne.symm last), phase_prepare (Ne.symm last), Block.put_cell_of_ne last]
          exact launched j (by omega)
      · rw [log]
        exact unused j
      · rw [log]
        exact disciplined)
  exact ⟨w', ran, ⟨sized'.vmfd, sized'.vcpufd, sized'.handle, sized'.mem⟩, rfl,
    fun j lt _ => launched j lt, fun j _ => unused' j, disciplined'⟩

/-! ## Serving -/

variable {numThreads first : Nat}

/-- A set deactivates the first machine that is left. -/
theorem Worker.Ready.deactivate (ready : w.Ready size first) (lt : first < size) :
    Worker.Ready size (first + 1)
      { w with log := .deactivate first (w.handle.cell first) :: w.log, vmCount := first + 1 } := by
  refine ⟨⟨ready.sized.vmfd, ready.sized.vcpufd, ready.sized.handle, ready.sized.mem⟩, rfl,
    fun j below least => ?_, fun j below => ?_, ready.launched first lt (Nat.le_refl first),
    ready.disciplined⟩
  · have other : first ≠ j := by omega
    simpa [phase, other] using ready.launched j below (by omega)
  · simp only [Pool.uses, ready.uses j below]
    split <;> split <;> split <;> omega

theorem Worker.Ready.serve_set (ready : w.Ready (maxVm / numThreads) first)
    (lt : first < maxVm / numThreads) (made : Nat → Made) :
    Pool.serve numThreads w (.set made) =
      let w := { w with log := .deactivate first (w.handle.cell first) :: w.log }
      if first + 1 = maxVm / numThreads then do
        let w ← Exec.forRange (maxVm / numThreads) (relaunchVm made)
          { w with log := .wbinvd :: w.log }
        return { w with vmCount := 0 }
      else return { w with vmCount := w.vmCount + 1 } := by
  have handle := Block.get_of_lt (b := w.handle) (i := first)
    (by rw [ready.sized.handle]; exact lt)
  have last : w.vmCount = (maxVm / numThreads : Nat) - (1 : Int) ↔
      first + 1 = maxVm / numThreads := by
    rw [ready.count]
    omega
  have index : w.vmCount.toNat = first := by rw [ready.count]; rfl
  have counted : 0 ≤ w.vmCount := by rw [ready.count]; exact Int.natCast_nonneg first
  simp only [Pool.serve, last, index, if_pos counted, handle, Exec.ok_bind]

/-- A pool with a machine left serves any request and has one left again. -/
theorem Worker.Ready.serve (ready : w.Ready (maxVm / numThreads) first)
    (lt : first < maxVm / numThreads) (op : Op) :
    ∃ w', serve numThreads w op = .ok w' ∧
      ∃ next < maxVm / numThreads, w'.Ready (maxVm / numThreads) next := by
  cases op with
  | get => exact ⟨w, rfl, first, lt, ready⟩
  | set made =>
    have spent := ready.deactivate lt
    rw [ready.serve_set lt]
    by_cases last : first + 1 = maxVm / numThreads
    · -- the last machine of the pool: all slots were used once, and are launched again
      let flushed : Worker :=
        { w with log := .wbinvd :: .deactivate first (w.handle.cell first) :: w.log }
      have sized : flushed.Sized (maxVm / numThreads) :=
        ⟨ready.sized.vmfd, ready.sized.vcpufd, ready.sized.handle, ready.sized.mem⟩
      have disciplined : Disciplined (maxVm / numThreads) flushed.log := by
        refine ⟨fun j below => ?_, spent.disciplined⟩
        rw [spent.uses j below, if_pos (by omega)]
      obtain ⟨w', ran, ready'⟩ := relaunch_ready sized disciplined (fun _ => rfl) made
      refine ⟨{ w' with vmCount := 0 }, ?_, 0, by omega, ready'⟩
      simp only [if_pos last]
      exact Exec.bind_eq_ok.mpr ⟨w', ran, rfl⟩
    · refine ⟨_, ?_, first + 1, by omega, spent⟩
      simp only [if_neg last, ready.count]
      rfl

theorem Worker.Ready.run (ready : w.Ready (maxVm / numThreads) first)
    (lt : first < maxVm / numThreads) (ops : List Op) :
    ∃ w', run (Pool.serve numThreads) w ops = .ok w' ∧ Disciplined (maxVm / numThreads) w'.log := by
  induction ops generalizing w first with
  | nil => exact ⟨w, rfl, ready.disciplined⟩
  | cons op ops ih =>
    obtain ⟨w', served, next, lt', ready'⟩ := ready.serve lt op
    rw [run_cons served]
    exact ih ready' lt'

/-- Without a machine only gets are served. -/
theorem Worker.Ready.run_empty (ready : w.Ready 0 0) (ops : List Op) :
    (∃ w', Transition.run (Pool.serve numThreads) w ops = .ok w' ∧ Disciplined 0 w'.log) ↔
      ∀ op ∈ ops, op = .get := by
  induction ops with
  | nil => exact ⟨nofun, fun _ => ⟨w, rfl, ready.disciplined⟩⟩
  | cons op ops ih =>
    cases op with
    | get =>
      have same : Pool.serve numThreads w .get = .ok w := rfl
      rw [run_cons same, ih]
      simp
    | set made =>
      have outside : w.handle.get 0 = .error .invalidAccess :=
        if_neg (by rw [ready.sized.handle]; exact Nat.lt_irrefl 0)
      have failed : Pool.serve numThreads w (.set made) = .error .invalidAccess := by
        simp [Pool.serve, ready.count, outside]
      simp [Transition.run, failed]

/-- A client thread stays inside its arrays and uses its machines in the order
launch, deactivate, relaunch, exactly when the pool has a machine or no machine is
asked for. The client takes any number of threads from its command line, also more
than there are machines. -/
theorem pool_disciplined_iff {numThreads : Nat} (positive : 0 < numThreads) (fresh : Nat → Nat)
    (made : Nat → Made) (ops : List Op) :
    (∃ w, work numThreads fresh made ops = .ok w ∧ Disciplined (maxVm / numThreads) w.log) ↔
      numThreads ≤ maxVm ∨ ∀ op ∈ ops, op = .get := by
  obtain ⟨w, ran, ready⟩ := vmInit_ready numThreads fresh made
  have worked : work numThreads fresh made ops = Transition.run (serve numThreads) w ops := by
    rw [work, ran]
    rfl
  rw [worked]
  by_cases enough : numThreads ≤ maxVm
  · have machine : 0 < maxVm / numThreads := Nat.div_pos enough positive
    exact ⟨fun _ => .inl enough, fun _ => ready.run machine ops⟩
  · have none : maxVm / numThreads = 0 := Nat.div_eq_of_lt (by omega)
    rw [none] at ready ⊢
    rw [ready.run_empty ops]
    exact ⟨.inr, fun either => either.resolve_left enough⟩

/-- Three threads have ten machines each, and a thread that sets eleven times
launches its machines twice. -/
theorem pool_disciplined_three :
    ∃ w, work 3 (fun _ => 0) (fun j => ⟨j, j, j, j⟩)
        (List.replicate 11 (.set fun j => ⟨j, j + 10, j + 10, j⟩)) = .ok w ∧
      Disciplined (maxVm / 3) w.log :=
  (pool_disciplined_iff (by decide) _ _ _).mpr (.inl (by decide))

/-- With 33 threads a pool is empty, and the first set reads outside it. -/
theorem pool_empty_read :
    maxVm / 33 = 0 ∧ work 33 (fun _ => 0) (fun j => ⟨j, j, j, j⟩) [.set fun j => ⟨j, j, j, j⟩] =
      .error .invalidAccess :=
  ⟨by decide, rfl⟩

end Kvsev.Client.Pool
