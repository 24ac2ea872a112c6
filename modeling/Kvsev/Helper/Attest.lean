import Kvsev.Memory.Heap
import Kvsev.Transition.Run

/-!
# The attestation request of the helper device

`SEV_ATTEST` asks the firmware for an attestation report. The kernel memory for
the report and the reference to the firmware's device file are the two resources
of the request. What the kernel's own functions answer is an input.
-/

namespace Kvsev.Helper

open Memory Transition

def efault : Int := 14

def einval : Int := 22

def enomem : Int := 12

def ebadf : Int := 9

/-- `struct sev_helper_attestation_report` -/
structure AttestationReport where
  fd : UInt32
  handle : UInt32
  mnonce : Vector UInt8 16
  uaddr : UInt64
  len : UInt32

/-- `struct sev_data_attestation_report`, the command buffer of the firmware. -/
structure ReportData where
  handle : UInt32
  address : Pointer
  mnonce : Vector UInt8 16
  len : UInt32

/-- `struct kvm_sev_cmd` -/
structure SevCmd where
  id : UInt32
  data : UInt64
  error : UInt32
  sevFd : UInt32

/-- What `fdget` found. `reference` is `FDPUT_FPUT`: a reference was taken, since
the table of files is shared with another thread. -/
structure Fd where
  file : Nat
  reference : Bool

/-- What the firmware answers: the status of the command, the bytes and the length
of the report, and its error code. -/
structure Reply where
  ret : Int
  report : Nat → UInt8
  len : UInt32
  error : UInt32

/-- A copy to the memory of the process. -/
inductive UserWrite where
  | blob (p : UInt64) (bytes : List UInt8)
  | report (p : UInt64) (params : AttestationReport)
  | cmd (sevCmd : SevCmd)

/-- The blobs, the files whose references are held, and what was copied out. -/
structure Kernel where
  heap : Heap UInt8
  files : List Nat
  user : List UserWrite

/-- How the kernel's functions turn out in one `ioctl`, in the order of the calls. -/
structure Outcome where
  /-- `copy_from_user` in `etx_ioctl` -/
  cmd : Option SevCmd
  /-- `copy_from_user` in `sev_attest` -/
  params : Option AttestationReport
  kmalloc : Option (Nat → UInt8)
  fdget : Option Fd
  reply : Reply
  /-- `copy_to_user` of the blob -/
  blobCopied : Bool
  /-- `copy_to_user` of the parameters -/
  reportCopied : Bool
  /-- `copy_to_user` in `etx_ioctl` -/
  cmdCopied : Bool

variable (blobMax : Nat)

/-- `sev_attest` from `e_free_blob` on. -/
def attestFreeBlob (blob : Pointer) (ret : Int) (arg : SevCmd) (k : Kernel) :
    Exec (Int × SevCmd × Kernel) := do
  let heap ← k.heap.free blob
  return (ret, arg, { k with heap })

/-- `sev_attest` from `done` on. -/
def attestDone (o : Outcome) (blob : Pointer) (ret : Int) (arg : SevCmd)
    (params : AttestationReport) (k : Kernel) : Exec (Int × SevCmd × Kernel) :=
  let params := { params with len := o.reply.len }
  if o.reportCopied then
    attestFreeBlob blob ret arg { k with user := .report arg.data params :: k.user }
  else attestFreeBlob blob (-efault) arg k

/-- `sev_issue_cmd_external_user`: the firmware writes the report. -/
def issueCmd (o : Outcome) (data : ReportData) (heap : Heap UInt8) : Exec (Heap UInt8) :=
  match data.address with
  | none => return heap
  | some i => heap.write (some i) 0 (Vector.ofFn fun j : Fin data.len.toNat => o.reply.report j)

/-- `sev_attest` after the command. -/
def attestReply (o : Outcome) (blob : Pointer) (arg : SevCmd) (params : AttestationReport)
    (k : Kernel) : Exec (Int × SevCmd × Kernel) := do
  if params.len = 0 then attestDone o blob o.reply.ret arg params k
  else if o.reply.ret ≠ 0 then attestFreeBlob blob o.reply.ret arg k
  else match blob with
    | none => attestDone o blob o.reply.ret arg params k
    | some i =>
      let bytes ← k.heap.read (some i) 0 params.len.toNat
      if o.blobCopied then
        attestDone o blob o.reply.ret arg params
          { k with user := .blob params.uaddr bytes.toList :: k.user }
      else attestDone o blob (-efault) arg params k

/-- `sev_attest` from `cmd` on. -/
def attestCmd (o : Outcome) (blob : Pointer) (data : ReportData) (arg : SevCmd)
    (params : AttestationReport) (k : Kernel) : Exec (Int × SevCmd × Kernel) :=
  let data := { data with handle := params.handle }
  match o.fdget with
  | none => return (-ebadf, arg, k)
  | some f => do
    let files := if f.reference then f.file :: k.files else k.files
    let heap ← issueCmd o data k.heap
    attestReply o blob { arg with error := o.reply.error } params { k with heap, files }

def sevAttest (o : Outcome) (arg : SevCmd) (k : Kernel) : Exec (Int × SevCmd × Kernel) :=
  match o.params with
  | none => return (-efault, arg, k)
  | some params =>
    let data : ReportData := ⟨0, none, Vector.replicate 16 0, 0⟩
    if params.len = 0 ∨ params.uaddr = 0 then attestCmd o none data arg params k
    else if blobMax < params.len.toNat then return (-einval, arg, k)
    else match k.heap.malloc params.len.toNat o.kmalloc with
      | (none, heap) => return (-enomem, arg, { k with heap })
      | (some i, heap) =>
        let data := { data with address := some i, len := params.len, mnonce := params.mnonce }
        attestCmd o (some i) data arg params { k with heap }

/-- `etx_ioctl` for `SEV_ATTEST`. -/
def etxIoctl (o : Outcome) (k : Kernel) : Exec (Int × Kernel) :=
  match o.cmd with
  | none => return (-efault, k)
  | some sevCmd => do
    let (ret, sevCmd, k) ← sevAttest blobMax o sevCmd k
    if o.cmdCopied then return (ret, { k with user := .cmd sevCmd :: k.user })
    else return (-efault, k)

/-- The kernel with the calls it served, latest first. -/
structure Served where
  kernel : Kernel
  calls : List (Outcome × Int)

def serve (s : Served) (o : Outcome) : Exec Served := do
  let (ret, kernel) ← etxIoctl blobMax o s.kernel
  return ⟨kernel, (o, ret) :: s.calls⟩

/-! ## Balance -/

/-- No blob is allocated and no reference is held. -/
def Kernel.Idle (k : Kernel) : Prop := k.heap.Released ∧ k.files = []

def AttestationReport.WantsBlob (params : AttestationReport) : Prop :=
  params.len ≠ 0 ∧ params.uaddr ≠ 0

/-- The command and all copies to the process succeeded. -/
structure Outcome.Succeeded (o : Outcome) : Prop where
  command : o.reply.ret = 0
  blob : ∀ params, o.params = some params → params.WantsBlob → o.blobCopied = true
  report : o.reportCopied = true
  cmd : o.cmdCopied = true

/-- The request ends before `fdget`, or `fdget` fails when there is no blob, or it
takes no reference. -/
def Outcome.Clean (o : Outcome) : Prop :=
  ∀ sevCmd params, o.cmd = some sevCmd → o.params = some params →
    (params.WantsBlob ∧ (blobMax < params.len.toNat ∨ o.kmalloc = none)) ∨
    (o.fdget = none ∧ ¬ params.WantsBlob) ∨ ∃ f, o.fdget = some f ∧ f.reference = false

variable {h : Heap UInt8} {size : Nat} {blob : Pointer} {ret : Int} {arg : SevCmd}
  {params : AttestationReport} {o : Outcome} {k : Kernel}

theorem attestFreeBlob_spec (lends : h.Lends k.heap size blob) (ret : Int) (arg : SevCmd) :
    ∃ k', attestFreeBlob blob ret arg k = .ok (ret, arg, k') ∧
      (∀ i, k'.heap.live? i = h.live? i) ∧ k'.files = k.files := by
  obtain ⟨heap, freed, same⟩ := lends.free
  exact ⟨{ k with heap }, Exec.bind_eq_ok.mpr ⟨heap, freed, rfl⟩, same, rfl⟩

theorem attestDone_spec (o : Outcome) (lends : h.Lends k.heap size blob) (ret : Int) (arg : SevCmd)
    (params : AttestationReport) :
    ∃ ret' k', attestDone o blob ret arg params k = .ok (ret', arg, k') ∧
      (∀ i, k'.heap.live? i = h.live? i) ∧ k'.files = k.files ∧
      (ret' = 0 → ret = 0 ∧ o.reportCopied = true) := by
  rw [attestDone]
  by_cases copied : o.reportCopied = true
  · obtain ⟨k', freed, same, files⟩ := attestFreeBlob_spec lends ret arg
      (k := { k with user := .report arg.data { params with len := o.reply.len } :: k.user })
    rw [if_pos copied]
    exact ⟨ret, k', freed, same, files, fun zero => ⟨zero, copied⟩⟩
  · obtain ⟨k', freed, same, files⟩ := attestFreeBlob_spec lends (-efault) arg
    rw [if_neg copied]
    exact ⟨-efault, k', freed, same, files, fun zero => absurd zero (by decide)⟩

/-- The firmware writes into the blob only. -/
theorem issueCmd_spec (o : Outcome) (data : ReportData)
    (lends : h.Lends k.heap data.len.toNat data.address) :
    ∃ heap, issueCmd o data k.heap = .ok heap ∧ h.Lends heap data.len.toNat data.address := by
  cases address : data.address with
  | none =>
    rw [address] at lends
    exact ⟨k.heap, by rw [issueCmd, address]; rfl, lends⟩
  | some i =>
    rw [address] at lends
    obtain ⟨heap, written, lends'⟩ := lends.write (Vector.ofFn fun j => o.reply.report j)
    exact ⟨heap, by rw [issueCmd, address]; exact written, lends'⟩

/-- Whatever was decided about the copies, the blob is given back. -/
theorem attestReply_spec (o : Outcome) (arg : SevCmd) (params : AttestationReport)
    (lends : h.Lends k.heap params.len.toNat blob) :
    ∃ ret k', attestReply o blob arg params k = .ok (ret, arg, k') ∧
      (∀ i, k'.heap.live? i = h.live? i) ∧ k'.files = k.files ∧
      (ret = 0 → o.reply.ret = 0 ∧ (params.len ≠ 0 → blob ≠ none → o.blobCopied = true) ∧
        o.reportCopied = true) := by
  rw [attestReply.eq_def]
  by_cases short : params.len = 0
  · obtain ⟨ret, k', ran, same, files, status⟩ := attestDone_spec o lends o.reply.ret arg params
    rw [if_pos short]
    exact ⟨ret, k', ran, same, files, fun zero =>
      ⟨(status zero).1, fun long => absurd short long, (status zero).2⟩⟩
  rw [if_neg short]
  by_cases failed : o.reply.ret ≠ 0
  · obtain ⟨k', ran, same, files⟩ := attestFreeBlob_spec lends o.reply.ret arg
    rw [if_pos failed]
    exact ⟨o.reply.ret, k', ran, same, files, fun zero => absurd zero failed⟩
  rw [if_neg failed]
  cases blob with
  | none =>
    obtain ⟨ret, k', ran, same, files, status⟩ := attestDone_spec o lends o.reply.ret arg params
    exact ⟨ret, k', ran, same, files, fun zero =>
      ⟨(status zero).1, fun _ some => absurd rfl some, (status zero).2⟩⟩
  | some i =>
    obtain ⟨bytes, read⟩ := lends.read
    simp only [read, Exec.ok_bind]
    by_cases copied : o.blobCopied = true
    · obtain ⟨ret, k', ran, same, files, status⟩ := attestDone_spec o lends o.reply.ret arg params
        (k := { k with user := .blob params.uaddr bytes.toList :: k.user })
      rw [if_pos copied]
      exact ⟨ret, k', ran, same, files, fun zero =>
        ⟨(status zero).1, fun _ _ => copied, (status zero).2⟩⟩
    · obtain ⟨ret, k', ran, same, files, status⟩ := attestDone_spec o lends (-efault) arg params
      rw [if_neg copied]
      exact ⟨ret, k', ran, same, files, fun zero => absurd (status zero).1 (by decide)⟩

/-- From `fdget` on: nothing is left behind if `fdget` fails without a blob, or takes
no reference. -/
theorem attestCmd_spec (o : Outcome) (data : ReportData) (arg : SevCmd) (params : AttestationReport)
    (address : data.address = blob) (len : blob ≠ none → data.len = params.len)
    (lends : h.Lends k.heap params.len.toNat blob) :
    ∃ ret arg' k', attestCmd o blob data arg params k = .ok (ret, arg', k') ∧
      (k'.Idle ↔ (h.Released ∧ k.files = []) ∧
        ((o.fdget = none ∧ blob = none) ∨ ∃ f, o.fdget = some f ∧ f.reference = false)) ∧
      (ret = 0 → o.reply.ret = 0 ∧ (params.len ≠ 0 → blob ≠ none → o.blobCopied = true) ∧
        o.reportCopied = true) := by
  rw [attestCmd]
  cases found : o.fdget with
  | none =>
    refine ⟨-ebadf, arg, k, rfl, ?_, fun zero => absurd zero (by decide)⟩
    cases blob with
    | none => simp [Kernel.Idle, Heap.released_congr lends]
    | some i => simp [Kernel.Idle, lends.not_released]
  | some f =>
    -- the buffer of the command describes the blob, if there is one
    have described : ∀ heap : Heap UInt8, h.Lends heap data.len.toNat data.address ↔
        h.Lends heap params.len.toNat blob := by
      intro heap
      rw [address]
      cases blob with
      | none => exact Iff.rfl
      | some i => rw [len (by simp)]
    obtain ⟨heap, issued, lends'⟩ :=
      issueCmd_spec o { data with handle := params.handle } ((described _).mpr lends)
    rw [issued]
    obtain ⟨ret, k', ran, same, files, status⟩ := attestReply_spec o
      { arg with error := o.reply.error } params
      (k := { k with heap, files := if f.reference then f.file :: k.files else k.files })
      ((described heap).mp lends')
    refine ⟨ret, _, k', ran, ?_, status⟩
    rw [Kernel.Idle, Heap.released_congr same, files]
    by_cases taken : f.reference = true <;> simp [taken]

theorem not_wantsBlob : ¬ params.WantsBlob ↔ params.len = 0 ∨ params.uaddr = 0 := by
  rw [AttestationReport.WantsBlob]
  tauto

theorem sevAttest_spec (o : Outcome) (arg : SevCmd) (k : Kernel) :
    ∃ ret arg' k', sevAttest blobMax o arg k = .ok (ret, arg', k') ∧
      (k'.Idle ↔ k.Idle ∧ ∀ params, o.params = some params →
        (params.WantsBlob ∧ (blobMax < params.len.toNat ∨ o.kmalloc = none)) ∨
        (o.fdget = none ∧ ¬ params.WantsBlob) ∨ ∃ f, o.fdget = some f ∧ f.reference = false) ∧
      (ret = 0 → o.reply.ret = 0 ∧
        (∀ params, o.params = some params → params.WantsBlob → o.blobCopied = true) ∧
        o.reportCopied = true) := by
  rw [sevAttest]
  cases read : o.params with
  | none => exact ⟨-efault, arg, k, rfl, by simp, fun zero => absurd zero (by decide)⟩
  | some params =>
    simp only [Option.some.injEq, forall_eq']
    by_cases wants : params.WantsBlob
    · rw [if_neg (fun none => not_wantsBlob.mpr none wants)]
      by_cases big : blobMax < params.len.toNat
      · rw [if_pos big]
        exact ⟨-einval, arg, k, rfl, by simp [wants, big], fun zero => absurd zero (by decide)⟩
      rw [if_neg big]
      cases fresh : o.kmalloc with
      | none =>
        have same : ∀ i, (k.heap.request params.len.toNat).live? i = k.heap.live? i :=
          fun _ => rfl
        refine ⟨-enomem, arg, { k with heap := k.heap.request params.len.toNat }, rfl, ?_,
          fun zero => absurd zero (by decide)⟩
        simp [Kernel.Idle, Heap.released_congr same, wants]
      | some cell =>
        obtain ⟨ret, arg', k', ran, idle, status⟩ := attestCmd_spec o
          ⟨0, some k.heap.blocks.length, params.mnonce, params.len⟩ arg params
          (k := { k with heap := (k.heap.malloc params.len.toNat (some cell)).2 }) rfl
          (fun _ => rfl) (k.heap.lends_malloc params.len.toNat cell)
        refine ⟨ret, arg', k', ran, ?_, fun zero => ?_⟩
        · rw [idle]
          simp [Kernel.Idle, wants, big]
        · obtain ⟨command, copied, report⟩ := status zero
          exact ⟨command, fun _ => copied wants.1 (by simp), report⟩
    · rw [if_pos (not_wantsBlob.mp wants)]
      obtain ⟨ret, arg', k', ran, idle, status⟩ := attestCmd_spec o
        ⟨0, none, Vector.replicate 16 0, 0⟩ arg params (h := k.heap) (k := k) rfl
        (fun some => absurd rfl some) (fun _ => rfl)
      refine ⟨ret, arg', k', ran, ?_, fun zero => ?_⟩
      · rw [idle]
        simp [Kernel.Idle, wants]
      · obtain ⟨command, -, report⟩ := status zero
        exact ⟨command, fun given => absurd given wants, report⟩

theorem etxIoctl_spec (o : Outcome) (k : Kernel) :
    ∃ ret k', etxIoctl blobMax o k = .ok (ret, k') ∧ (k'.Idle ↔ k.Idle ∧ o.Clean blobMax) ∧
      (ret = 0 → o.Succeeded) := by
  rw [etxIoctl]
  cases given : o.cmd with
  | none =>
    exact ⟨-efault, k, rfl, by simp [Outcome.Clean, given], fun zero => absurd zero (by decide)⟩
  | some sevCmd =>
    obtain ⟨ret, arg, k', ran, idle, status⟩ := sevAttest_spec blobMax o sevCmd k
    have clean : k'.Idle ↔ k.Idle ∧ o.Clean blobMax := by
      rw [idle]
      exact and_congr_right fun _ => ⟨fun all _ params _ read => all params read,
        fun clean params read => clean sevCmd params given read⟩
    simp only [ran, Exec.ok_bind]
    by_cases copied : o.cmdCopied = true
    · rw [if_pos copied]
      refine ⟨ret, { k' with user := .cmd arg :: k'.user }, rfl, clean, fun zero => ?_⟩
      obtain ⟨command, blob, report⟩ := status zero
      exact ⟨command, blob, report, copied⟩
    · rw [if_neg copied]
      exact ⟨-efault, k', rfl, clean, fun zero => absurd zero (by decide)⟩

theorem serve_spec (s : Served) (o : Outcome) :
    ∃ s', serve blobMax s o = .ok s' ∧ (s'.kernel.Idle ↔ s.kernel.Idle ∧ o.Clean blobMax) ∧
      ∃ ret, s'.calls = (o, ret) :: s.calls ∧ (ret = 0 → o.Succeeded) := by
  obtain ⟨ret, k', ran, idle, status⟩ := etxIoctl_spec blobMax o s.kernel
  exact ⟨⟨k', (o, ret) :: s.calls⟩, Exec.bind_eq_ok.mpr ⟨_, ran, rfl⟩, idle, ret, rfl, status⟩

/-- A call that reported success had everything succeed. -/
def Served.Honest (s : Served) : Prop := ∀ call ∈ s.calls, call.2 = 0 → call.1.Succeeded

theorem run_honest {s : Served} (honest : s.Honest) (os : List Outcome) :
    ∃ s', run (serve blobMax) s os = .ok s' ∧ s'.Honest := by
  induction os generalizing s with
  | nil => exact ⟨s, rfl, honest⟩
  | cons o os ih =>
    obtain ⟨s', ran, -, ret, calls, status⟩ := serve_spec blobMax s o
    rw [run_cons ran]
    refine ih fun call mem => ?_
    rw [calls] at mem
    cases mem with
    | head => exact status
    | tail _ mem => exact honest call mem

theorem always_idle_iff {s : Served} (idle : s.kernel.Idle) (os : List Outcome) :
    Always (serve blobMax) (fun s => s.kernel.Idle) s os ↔ ∀ o ∈ os, o.Clean blobMax := by
  have returns : ∀ s o, ∃ s', serve blobMax s o = .ok s' := by
    intro s o
    obtain ⟨s', ran, -⟩ := serve_spec blobMax s o
    exact ⟨s', ran⟩
  rw [← meets_inputs returns (s := s)]
  refine always_iff_meets (fun _ => id) (fun s o idle clean => ?_)
    (fun s o s' idle ran idle' => ?_) idle
  · obtain ⟨s', ran, kept, -⟩ := serve_spec blobMax s o
    exact ⟨s', ran, kept.mpr ⟨idle, clean⟩⟩
  · obtain ⟨s'', again, kept, -⟩ := serve_spec blobMax s o
    rw [ran] at again
    obtain rfl := Except.ok.inj again
    exact (kept.mp idle').2

/-- The device before its first request. -/
def loaded : Served := ⟨⟨.empty, [], []⟩, []⟩

/-- Every sequence of attestation requests returns, with success only where everything
succeeded. Each request gives back what it took exactly when none of them gets a
reference from `fdget`, or fails in `fdget` with a blob allocated. -/
theorem attest_balanced_iff (blobMax : Nat) (os : List Outcome) :
    (∃ s, run (serve blobMax) loaded os = .ok s ∧ s.Honest) ∧
      (Always (serve blobMax) (fun s => s.kernel.Idle) loaded os ↔
        ∀ o ∈ os, o.Clean blobMax) :=
  ⟨run_honest blobMax (fun _ mem => absurd mem List.not_mem_nil) os,
    always_idle_iff blobMax ⟨fun _ mem => absurd mem List.not_mem_nil, rfl⟩ os⟩

/-- A request that succeeds, in a process whose table of files is shared. -/
def sharedRequest : Outcome where
  cmd := some ⟨0, 1, 0, 3⟩
  params := some ⟨3, 1, Vector.replicate 16 0, 4096, 64⟩
  kmalloc := some fun _ => 0
  fdget := some ⟨3, true⟩
  reply := ⟨0, fun _ => 0, 64, 0⟩
  blobCopied := true
  reportCopied := true
  cmdCopied := true

/-- The reference of a request that succeeds is kept, and the blob of a request with
a bad descriptor is. -/
theorem attest_leaks :
    (∃ s, run (serve 16384) loaded [sharedRequest] = .ok s ∧ s.kernel.files = [3] ∧
      s.calls.map Prod.snd = [0]) ∧
    ∃ s, run (serve 16384) loaded [{ sharedRequest with fdget := none }] = .ok s ∧
      s.calls.map Prod.snd = [-ebadf] ∧ ¬ s.kernel.heap.Released := by
  refine ⟨⟨_, rfl, rfl, rfl⟩, _, rfl, rfl, fun released => ?_⟩
  cases released _ (List.mem_singleton_self _)

end Kvsev.Helper
