import UGDS.Api.Register

/-!
# UGDS.Api.AdminQueues

`nvm_aq_create` (`rpc.cpp`) with `create_admin` and `nvm_raw_ctrl_reset`, as the register accesses that
it makes and the queue descriptors that it leaves.

The descriptors are allocated with `malloc`. `nvm_queue_clear` fills a descriptor in or leaves it as
it is, and neither its result nor that of the reset is looked at.

* `readyAfterEnable_iff`, `nvmRawCtrlReset_ok_iff`: the controller is seen ready after it was enabled
  exactly if the reset returns 0, and when that is in terms of the readings of `CSTS.RDY`.
* `admin_sizes`: the sizes of the queues, as they are computed on the host and for `AQA`.
* `aq_create_working`: when the queues work.
* `createAdmin_eq`: the same function in `UGDS.Api.Register`, without the case in which a queue is
  not initialised.
-/

namespace UGDS

open Nvm Lib Drv

/-! ## Register accesses -/

inductive RegEvent where
  | readRdy (b : Bool)
  | writeCc (v : Nat)
  | writeAqa (v : Nat)
  | writeAcq (addr : BitVec 64)
  | writeAsq (addr : BitVec 64)

/-- The access sets `CC.EN`. -/
def RegEvent.enables : RegEvent → Bool
  | .writeCc v => v % 2 = 1
  | _ => false

/-- The readings of a loop on `CSTS.RDY`, numbered as in `waitRdy`. -/
def waitTrace (rdy : Nat → Bool) (want : Bool) : (n i : Nat) → List RegEvent
  | 0, i => [.readRdy (rdy i)]
  | n + 1, i => .readRdy (rdy i) :: if rdy i = want then [] else waitTrace rdy want n (i + 1)

/-- The accesses of `nvm_raw_ctrl_reset`. `cc` is the value of `CC` before. -/
def resetTrace (ctrl : NvmCtrl) (rdy : Nat → Bool) (acq asq : BitVec 64) (cc : Nat) :
    List RegEvent :=
  let n := delays ctrl.timeout - 1
  let regs := resetRegs ctrl acq asq
  let down := waitRdy rdy false n 0
  .writeCc (cc / 2 * 2) :: waitTrace rdy false n 0 ++
    if down.1 then
      [.writeAqa regs.aqa, .writeAcq regs.acq, .writeAsq regs.asq, .writeCc regs.cc] ++
        waitTrace rdy true n down.2
    else []

/-- The controller was read as ready after the first access that enabled it. -/
def ReadyAfterEnable (tr : List RegEvent) : Prop :=
  .readRdy true ∈ tr.dropWhile fun e => !e.enables

/-- `AQA.ACQS` and `AQA.ASQS`, 0's based. -/
def aqaAcqs (v : Nat) : Nat := v / 2 ^ 16 % 2 ^ 12
def aqaAsqs (v : Nat) : Nat := v % 2 ^ 12

/-! ## nvm_aq_create -/

/-- `struct local_admin` without the handle of its memory. -/
structure LocalAdmin where
  acq : NvmQueue
  asq : NvmQueue
  timeout : Nat

/-- The descriptor after a call of `nvm_queue_clear` on it. -/
def NvmQueue.cleared (old : NvmQueue) : Except Errno NvmQueue → NvmQueue
  | .ok q => q
  | .error _ => old

/-- The descriptors that `create_admin` fills in, in memory that held `mem`. -/
def initAdmin (ctrl : NvmCtrl) (window : NvmDma) (mem : LocalAdmin) : LocalAdmin where
  acq := NvmQueue.cleared mem.acq (nvmQueueClear ctrl true 0 (u32 (ctrl.pageSize / 16))
    window.isLocal window.vaddr (window.ioaddrs.getD 0 0#64))
  asq := NvmQueue.cleared mem.asq (nvmQueueClear ctrl false 0 (u32 (ctrl.pageSize / 64))
    window.isLocal (u64 (window.vaddr + window.pageSize)) (window.ioaddrs.getD 1 0#64))
  timeout := ctrl.timeout

/-- The error that `_nvm_ref_get` or `create_admin` ends with, and whether the copy of the handle had
been made and was unmapped again. -/
def aqError (ctrl : NvmCtrl) (env : AqEnv) (window : NvmDma) : Option (Errno × Bool) :=
  if !env.ref then some (.ENOMEM, false)
  else if ctrl.pageSize ≠ window.pageSize then some (.EINVAL, false)
  else if window.nIoaddrs < 2 then some (.ERANGE, false)
  else if window.vaddr = 0 then some (.EINVAL, false)
  else if !env.remap then some (.ENOMEM, false)
  else if !env.admin then some (.ENOMEM, true)
  else none

/-- `nvm_aq_create`: the descriptors and the register accesses. -/
def nvmAqCreate (ctrl : NvmCtrl) (env : AqEnv) (window : NvmDma) (mem : LocalAdmin) (cc : Nat) :
    Except (Errno × Bool) (LocalAdmin × List RegEvent) :=
  match aqError ctrl env window with
  | some e => .error e
  | none => .ok (initAdmin ctrl window mem, resetTrace ctrl env.rdy (window.ioaddrs.getD 0 0#64)
      (window.ioaddrs.getD 1 0#64) cc)

/-- A descriptor as `nvm_queue_clear` leaves it. -/
structure NvmQueue.Empty (q : NvmQueue) : Prop where
  head : q.head = 0
  tail : q.tail = 0
  phase : q.phase = true

/-- The controller is ready and has been told the sizes of the host's queues, which are empty. -/
structure Working (admin : LocalAdmin) (tr : List RegEvent) : Prop where
  ready : ReadyAfterEnable tr
  acq : NvmQueue.Empty admin.acq
  asq : NvmQueue.Empty admin.asq
  sizes : ∃ v, .writeAqa v ∈ tr ∧ admin.acq.qs = aqaAcqs v + 1 ∧ admin.asq.qs = aqaAsqs v + 1

/-! ## The reset -/

theorem readRdy_waitTrace (rdy : Nat → Bool) (want : Bool) (n i : Nat) :
    .readRdy want ∈ waitTrace rdy want n i ↔ (waitRdy rdy want n i).1 = true := by
  induction n generalizing i with
  | zero => simp [waitTrace, waitRdy, eq_comm]
  | succ n ih =>
    simp only [waitTrace, waitRdy]
    split
    · rename_i h
      simp [h]
    · rename_i h
      rw [List.mem_cons, ih]
      simp [Ne.symm h]

theorem not_enables_waitTrace (rdy : Nat → Bool) (want : Bool) (n i : Nat) :
    ∀ e ∈ waitTrace rdy want n i, (!e.enables) = true := by
  induction n generalizing i with
  | zero => simp [waitTrace, RegEvent.enables]
  | succ n ih =>
    intro e he
    simp only [waitTrace] at he
    rcases List.mem_cons.mp he with rfl | he
    · rfl
    · split at he
      · cases he
      · exact ih (i + 1) e he

/-- What follows the access that enables the controller. -/
theorem resetTrace_dropWhile (ctrl : NvmCtrl) (rdy : Nat → Bool) (acq asq : BitVec 64) (cc : Nat) :
    (resetTrace ctrl rdy acq asq cc).dropWhile (fun e => !e.enables) =
      if (waitRdy rdy false (delays ctrl.timeout - 1) 0).1 then
        .writeCc (resetRegs ctrl acq asq).cc :: waitTrace rdy true (delays ctrl.timeout - 1)
          (waitRdy rdy false (delays ctrl.timeout - 1) 0).2
      else [] := by
  have hoff : (!(RegEvent.writeCc (cc / 2 * 2)).enables) = true := by simp [RegEvent.enables]
  have hpre : ∀ e ∈ RegEvent.writeCc (cc / 2 * 2) ::
      waitTrace rdy false (delays ctrl.timeout - 1) 0, (!e.enables) = true :=
    List.forall_mem_cons.mpr ⟨hoff, not_enables_waitTrace rdy false _ 0⟩
  have hen : (RegEvent.writeCc (resetRegs ctrl acq asq).cc).enables = true :=
    resetRegs_enabled ctrl acq asq
  unfold resetTrace
  simp only
  rw [List.dropWhile_append_of_pos hpre]
  split
  · simp only [List.cons_append, List.nil_append, List.dropWhile_cons, hen]
    rfl
  · rfl

theorem readyAfterEnable_iff (ctrl : NvmCtrl) (rdy : Nat → Bool) (acq asq : BitVec 64) (cc : Nat)
    (r : CtrlRegs) :
    ReadyAfterEnable (resetTrace ctrl rdy acq asq cc) ↔
      (nvmRawCtrlReset ctrl rdy acq asq r).1 = none := by
  unfold ReadyAfterEnable nvmRawCtrlReset
  rw [resetTrace_dropWhile]
  rcases hd : waitRdy rdy false (delays ctrl.timeout - 1) 0 with ⟨down, i⟩
  cases down with
  | false => simp
  | true =>
    have hup := readRdy_waitTrace rdy true (delays ctrl.timeout - 1) i
    rcases hu : waitRdy rdy true (delays ctrl.timeout - 1) i with ⟨up, k⟩
    rw [hu] at hup
    cases up <;> simp [hup, hu]

/-- `RDY` reads 0 at one of the first `n` readings after `EN` was cleared, and 1 at one of the first
`n` after that, when `EN` was set. -/
def ComesReady (rdy : Nat → Bool) (n : Nat) : Prop :=
  ∃ d < n, (∀ i < d, rdy i = true) ∧ rdy d = false ∧ ∃ u < n, rdy (d + 1 + u) = true

/-- A wait ends well at the first reading of the wanted value, if that is within its readings. -/
theorem waitRdy_ok_iff (rdy : Nat → Bool) (want : Bool) (n i : Nat) :
    (waitRdy rdy want n i).1 = true ↔ ∃ d ≤ n, rdy (i + d) = want := by
  induction n generalizing i with
  | zero => simp [waitRdy]
  | succ n ih =>
    simp only [waitRdy]
    split
    · rename_i h
      exact ⟨fun _ => ⟨0, Nat.zero_le _, h⟩, fun _ => rfl⟩
    · rename_i h
      rw [ih]
      constructor
      · rintro ⟨d, hd, he⟩
        exact ⟨d + 1, by omega, by rwa [← Nat.add_assoc, Nat.add_right_comm]⟩
      · rintro ⟨d, hd, he⟩
        cases d with
        | zero => exact absurd he h
        | succ d => exact ⟨d, by omega, by rwa [Nat.add_right_comm, Nat.add_assoc]⟩

/-- Where it ends. -/
theorem waitRdy_eq_true_iff (rdy : Nat → Bool) (want : Bool) (n i k : Nat) :
    waitRdy rdy want n i = (true, k) ↔
      ∃ d ≤ n, (∀ e < d, rdy (i + e) ≠ want) ∧ rdy (i + d) = want ∧ i + d + 1 = k := by
  induction n generalizing i with
  | zero => simp [waitRdy]
  | succ n ih =>
    simp only [waitRdy]
    split
    · rename_i h
      constructor
      · intro hk
        exact ⟨0, Nat.zero_le _, by simp, h, congrArg Prod.snd hk⟩
      · rintro ⟨d, -, hfirst, -, rfl⟩
        cases d with
        | zero => rfl
        | succ d => exact absurd h (hfirst 0 (Nat.succ_pos d))
    · rename_i h
      rw [ih]
      have heq (e : Nat) : i + 1 + e = i + (e + 1) := by omega
      constructor
      · rintro ⟨d, hd, hfirst, hr, rfl⟩
        refine ⟨d + 1, by omega, fun e he => ?_, heq d ▸ hr, by rw [heq]⟩
        cases e with
        | zero => exact h
        | succ e => exact heq e ▸ hfirst e (by omega)
      · rintro ⟨d, hd, hfirst, hr, rfl⟩
        cases d with
        | zero => exact absurd hr h
        | succ d =>
          exact ⟨d, by omega, fun e he => (heq e).symm ▸ hfirst (e + 1) (by omega),
            (heq d).symm ▸ hr, by rw [heq]⟩

/-- A reset returns 0 exactly if the controller is seen disabled and then ready in time. -/
theorem nvmRawCtrlReset_ok_iff (ctrl : NvmCtrl) (rdy : Nat → Bool) (acq asq : BitVec 64)
    (r : CtrlRegs) :
    (nvmRawCtrlReset ctrl rdy acq asq r).1 = none ↔
      ComesReady rdy (delays ctrl.timeout - 1 + 1) := by
  have hdown (k : Nat) := waitRdy_eq_true_iff rdy false (delays ctrl.timeout - 1) 0 k
  have hup (i : Nat) := waitRdy_ok_iff rdy true (delays ctrl.timeout - 1) i
  simp only [Nat.zero_add, ne_eq, Bool.not_eq_false] at hdown
  simp only [ComesReady, Nat.lt_succ_iff]
  unfold nvmRawCtrlReset
  constructor
  · intro h
    split at h
    · cases h
    rename_i i hw
    obtain ⟨d, hd, hbefore, hoff, rfl⟩ := (hdown i).mp hw
    split at h
    · cases h
    rename_i hw'
    exact ⟨d, hd, hbefore, hoff, (hup (d + 1)).mp (by rw [hw'])⟩
  · rintro ⟨d, hd, hbefore, hoff, hon⟩
    have hu := (hup (d + 1)).mpr hon
    rw [(hdown (d + 1)).mpr ⟨d, hd, hbefore, hoff, rfl⟩]
    simp only
    split
    · rename_i hw
      rw [hw] at hu
      cases hu
    · rfl

/-- A controller opened by `_nvm_ctrl_init` is given `CAP.TO` units of 500 ms, one reading each
millisecond and at least one. -/
theorem readings_eq {alloc : Bool} {hostPage : Nat} {cap : BitVec 64} {ctrl : NvmCtrl}
    (h : nvmCtrlInit alloc hostPage cap = .ok ctrl) :
    delays ctrl.timeout - 1 + 1 = max 1 (500 * capTo cap) := by
  have hto : capTo cap < 2 ^ 8 := Nat.mod_lt _ (by decide)
  have hlt : 1000000 * (capTo cap * 500) < 2 ^ 64 := by omega
  rw [(nvmCtrlInit_ok h).2, delays, u64_of_lt hlt]
  omega

/-! ## The sizes -/

/-- The fields of `AQA` are the low 12 bits of the numbers put into them. -/
theorem aqa_fields (a b : Nat) :
    aqaAcqs (wb a 27 16 ||| wb b 11 0) = a % 2 ^ 12 ∧
      aqaAsqs (wb a 27 16 ||| wb b 11 0) = b % 2 ^ 12 := by
  have hb : b % 2 ^ 12 * 2 ^ 0 < 2 ^ 16 := by omega
  have hor : wb a 27 16 ||| wb b 11 0 = 2 ^ 16 * (a % 2 ^ 12) + b % 2 ^ 12 * 2 ^ 0 := by
    rw [Nat.two_pow_add_eq_or_of_lt hb, wb, wb, Nat.mul_comm (2 ^ 16)]
  rw [hor, aqaAcqs, aqaAsqs]
  omega

/-- With a page size that `_nvm_ctrl_init` accepts, the completion queue has four times as many
entries as the submission queue, which has at least 64. `AQA` gets the sizes minus 1, as far as 12
bits hold them. -/
theorem admin_sizes {alloc : Bool} {hostPage : Nat} {cap : BitVec 64} {ctrl : NvmCtrl}
    (h : nvmCtrlInit alloc hostPage cap = .ok ctrl) (acq asq : BitVec 64) :
    u32 (ctrl.pageSize / 16) / 4 = u32 (ctrl.pageSize / 64) ∧ 64 ≤ u32 (ctrl.pageSize / 64) ∧
      aqaAcqs (resetRegs ctrl acq asq).aqa = (u32 (ctrl.pageSize / 16) - 1) % 2 ^ 12 ∧
      aqaAsqs (resetRegs ctrl acq asq).aqa = (u32 (ctrl.pageSize / 64) - 1) % 2 ^ 12 := by
  obtain ⟨hpos, hlt⟩ := nvmCtrlInit_encoded h
  rw [(nvmCtrlInit_ok h).2]
  simp only [resetRegs, (aqa_fields _ _).1, (aqa_fields _ _).2]
  simp only [u32] at *
  refine ⟨?_, ?_, ?_, ?_⟩ <;> omega

theorem writeAqa_waitTrace (rdy : Nat → Bool) (want : Bool) (n i v : Nat) :
    .writeAqa v ∉ waitTrace rdy want n i := by
  induction n generalizing i with
  | zero => simp [waitTrace]
  | succ n ih =>
    intro h
    simp only [waitTrace] at h
    rcases List.mem_cons.mp h with h | h
    · cases h
    · split at h
      · cases h
      · exact ih (i + 1) h

/-- A reset writes `AQA` when it has seen the controller disabled, and once. -/
theorem writeAqa_resetTrace (ctrl : NvmCtrl) (rdy : Nat → Bool) (acq asq : BitVec 64) (cc v : Nat) :
    .writeAqa v ∈ resetTrace ctrl rdy acq asq cc ↔
      (waitRdy rdy false (delays ctrl.timeout - 1) 0).1 = true ∧
        v = (resetRegs ctrl acq asq).aqa := by
  have h1 := writeAqa_waitTrace rdy false (delays ctrl.timeout - 1) 0 v
  have h2 := writeAqa_waitTrace rdy true (delays ctrl.timeout - 1)
    (waitRdy rdy false (delays ctrl.timeout - 1) 0).2 v
  unfold resetTrace
  simp only
  split <;> simp [*]

theorem writeAqa_of_ready {ctrl : NvmCtrl} {rdy : Nat → Bool} {acq asq : BitVec 64} {cc : Nat}
    (h : ReadyAfterEnable (resetTrace ctrl rdy acq asq cc)) :
    .writeAqa (resetRegs ctrl acq asq).aqa ∈ resetTrace ctrl rdy acq asq cc := by
  unfold ReadyAfterEnable at h
  rw [resetTrace_dropWhile] at h
  split at h
  · exact (writeAqa_resetTrace ..).mpr ⟨‹_›, rfl⟩
  · cases h

/-! ## The queues -/

section Queues

variable {ctrl : NvmCtrl} {env : AqEnv} {window : NvmDma} {mem : LocalAdmin} {cc : Nat}

theorem nvmAqCreate_ok {x : LocalAdmin × List RegEvent}
    (h : nvmAqCreate ctrl env window mem cc = .ok x) (mem' : LocalAdmin) :
    nvmAqCreate ctrl env window mem' cc = .ok (initAdmin ctrl window mem',
      resetTrace ctrl env.rdy (window.ioaddrs.getD 0 0#64) (window.ioaddrs.getD 1 0#64) cc) := by
  cases he : aqError ctrl env window with
  | some e => simp [nvmAqCreate, he] at h
  | none => simp only [nvmAqCreate, he]

/-- A queue that is too small or too large is not initialised. -/
theorem cleared_cases (cq : Bool) (no qs : Nat) (loc : Bool) (vaddr : Nat) (ioaddr : BitVec 64)
    (old : NvmQueue) :
    (qs < 2 ∨ qs > 0x10000 ∨ qs > ctrl.maxQs) ∧
        NvmQueue.cleared old (nvmQueueClear ctrl cq no qs loc vaddr ioaddr) = old ∨
      (2 ≤ qs ∧ qs ≤ 0x10000 ∧ qs ≤ ctrl.maxQs) ∧
        NvmQueue.Empty (NvmQueue.cleared old (nvmQueueClear ctrl cq no qs loc vaddr ioaddr)) ∧
        (NvmQueue.cleared old (nvmQueueClear ctrl cq no qs loc vaddr ioaddr)).qs = qs := by
  unfold nvmQueueClear
  split
  · exact .inl ⟨‹_›, rfl⟩
  · exact .inr ⟨by omega, ⟨rfl, rfl, rfl⟩, rfl⟩

end Queues

/-- `nvm_aq_create` on a controller that `_nvm_ctrl_init` has accepted, when it returns 0. Whatever
the memory of the descriptors held before, the queues work exactly if `RDY` goes to 0 and then to 1
within the readings that `CAP.TO` allows, and the completion queue, of a page, has no more entries
than the controller allows and than 12 bits can count. -/
theorem aq_create_working {alloc : Bool} {hostPage : Nat} {cap : BitVec 64} {ctrl : NvmCtrl}
    (hctrl : nvmCtrlInit alloc hostPage cap = .ok ctrl) {env : AqEnv} {window : NvmDma}
    {mem₀ : LocalAdmin} {cc : Nat} {x₀ : LocalAdmin × List RegEvent}
    (hok : nvmAqCreate ctrl env window mem₀ cc = .ok x₀) :
    (∀ mem admin tr, nvmAqCreate ctrl env window mem cc = .ok (admin, tr) → Working admin tr) ↔
      ComesReady env.rdy (max 1 (500 * capTo cap)) ∧
        u32 (hostPage / 16) ≤ capMqes cap + 1 ∧ u32 (hostPage / 16) ≤ 4096 := by
  obtain ⟨hquarter, h64, hacqs, hasqs⟩ :=
    admin_sizes hctrl (window.ioaddrs.getD 0 0#64) (window.ioaddrs.getD 1 0#64)
  have hmax : ctrl.maxQs = capMqes cap + 1 := by rw [(nvmCtrlInit_ok hctrl).2]
  have hpage : ctrl.pageSize = hostPage := by rw [(nvmCtrlInit_ok hctrl).2]
  rw [hpage] at hquarter h64 hacqs hasqs
  have hacq (old : NvmQueue) := @cleared_cases ctrl true 0 (u32 (hostPage / 16)) window.isLocal
    window.vaddr (window.ioaddrs.getD 0 0#64) old
  have hasq (old : NvmQueue) := @cleared_cases ctrl false 0 (u32 (hostPage / 64)) window.isLocal
    (u64 (window.vaddr + window.pageSize)) (window.ioaddrs.getD 1 0#64) old
  rw [hmax] at hacq hasq
  have hready : ReadyAfterEnable (resetTrace ctrl env.rdy (window.ioaddrs.getD 0 0#64)
      (window.ioaddrs.getD 1 0#64) cc) ↔ ComesReady env.rdy (max 1 (500 * capTo cap)) := by
    rw [← readings_eq hctrl]
    exact (readyAfterEnable_iff ctrl env.rdy _ _ cc ⟨cc, 0, 0, 0⟩).trans
      (nvmRawCtrlReset_ok_iff ..)
  constructor
  · intro h
    -- memory that does not look like an empty queue
    have hw := h { mem₀ with acq := { mem₀.acq with head := 1 } } _ _ (nvmAqCreate_ok hok _)
    obtain ⟨v, hv, hq, -⟩ := hw.sizes
    have hhead := hw.acq.head
    rw [(writeAqa_resetTrace ..).mp hv |>.2, hacqs] at hq
    simp only [initAdmin, hpage] at hq hhead
    rcases hacq { mem₀.acq with head := 1 } with ⟨-, he⟩ | ⟨hle, -, he⟩
    · rw [he] at hhead
      cases hhead
    · rw [he] at hq
      exact ⟨hready.mp hw.ready, hle.2.2, by omega⟩
  · rintro ⟨hrdy, hle, hle'⟩ mem admin tr hx
    rw [nvmAqCreate_ok hok mem] at hx
    cases hx
    rcases hacq mem.acq with ⟨hbad, -⟩ | ⟨-, hempty, hqs⟩
    · omega
    rcases hasq mem.asq with ⟨hbad, -⟩ | ⟨-, hempty', hqs'⟩
    · omega
    refine ⟨hready.mpr hrdy, ?_, ?_, ?_⟩
    · simp only [initAdmin, hpage]
      exact hempty
    · simp only [initAdmin, hpage]
      exact hempty'
    · refine ⟨_, writeAqa_of_ready (hready.mpr hrdy), ?_, ?_⟩
      · rw [hacqs]
        simp only [initAdmin, hpage, hqs]
        omega
      · rw [hasqs]
        simp only [initAdmin, hpage, hqs']
        omega

/-! ## Examples of controllers -/

/-- A descriptor in memory that was used before. -/
def usedQueue : NvmQueue := ⟨3, 16, 40, 7, 9, 5, false, true, none, 0, 0⟩

/-- The memory of both descriptors. -/
def usedMemory : LocalAdmin := ⟨usedQueue, usedQueue, 0⟩

/-- The window of an admin queue pair: two pages and the Identify page. -/
def adminWindow : NvmDma := ⟨0x10000, true, true, 4096, [0x1000#64, 0x2000#64, 0x3000#64], 0⟩

/-- Everything is allocated, and the controller is ready at every second reading. -/
def promptEnv : AqEnv := ⟨true, true, true, fun i => i % 2 = 1⟩

/-- With pages of 4 KiB and queues of up to 1024 entries the queues work. -/
theorem aq_create_working_small_page :
    ∃ ctrl admin tr, nvmCtrlInit true 4096 0x3ff#64 = .ok ctrl ∧
      nvmAqCreate ctrl promptEnv adminWindow usedMemory 0 = .ok (admin, tr) ∧ Working admin tr := by
  have hctrl : nvmCtrlInit true 4096 0x3ff#64 = .ok ⟨4096, 0, 0, 1024⟩ := by decide +kernel
  have hok : nvmAqCreate ⟨4096, 0, 0, 1024⟩ promptEnv adminWindow usedMemory 0 = .ok _ := rfl
  -- `CAP.TO` is 0, so each wait makes one reading
  have hrdy : ComesReady promptEnv.rdy (max 1 (500 * capTo 0x3ff#64)) :=
    ⟨0, by decide, by simp, by decide, 0, by decide, by decide⟩
  exact ⟨_, _, _, hctrl, hok, (aq_create_working hctrl hok).mpr
    ⟨hrdy, by decide, by decide⟩ _ _ _ hok⟩

/-- A controller with queues of at most 64 entries: the completion queue of 256 entries is refused,
and its descriptor is what the memory held. -/
theorem aq_create_not_cleared :
    ¬ ∀ (alloc : Bool) (hostPage : Nat) (cap : BitVec 64) (ctrl : NvmCtrl),
      nvmCtrlInit alloc hostPage cap = .ok ctrl →
      ∀ (env : AqEnv) (window : NvmDma) (mem : LocalAdmin) (cc : Nat) (admin : LocalAdmin)
        (tr : List RegEvent),
        nvmAqCreate ctrl env window mem cc = .ok (admin, tr) → Working admin tr := by
  intro h
  have hctrl : nvmCtrlInit true 4096 0x3f#64 = .ok ⟨4096, 0, 0, 64⟩ := by decide +kernel
  have hok : nvmAqCreate ⟨4096, 0, 0, 64⟩ promptEnv adminWindow usedMemory 0 = .ok _ := rfl
  have hhead := (h true 4096 0x3f#64 _ hctrl promptEnv adminWindow usedMemory 0 _ _ hok).acq.head
  exact absurd hhead (by decide)

/-! ## Registration -/

/-- `createAdmin` is the same function where both queues are initialised. -/
theorem createAdmin_eq {ctrl : NvmCtrl} (hp : ctrl.pageSize < 2 ^ 36) (env : AqEnv) (window : NvmDma)
    (mem : LocalAdmin) (cc : Nat) :
    createAdmin ctrl env window = none ∨
      createAdmin ctrl env window = some ((nvmAqCreate ctrl env window mem cc).map fun x =>
        .create x.1.asq x.1.acq 0) := by
  have hcq : u32 (ctrl.pageSize / 16) = ctrl.pageSize / 16 := u32_of_lt (by omega)
  have hsq : u32 (ctrl.pageSize / 64) = ctrl.pageSize / 64 := u32_of_lt (by omega)
  unfold createAdmin nvmAqCreate aqError
  split
  · exact .inr rfl
  split
  · exact .inr rfl
  split
  · exact .inr rfl
  split
  · exact .inr rfl
  split
  · exact .inr rfl
  split
  · exact .inr rfl
  simp only [initAdmin, hcq, hsq]
  split
  · rename_i acq asq hacq hasq
    rw [hacq, hasq]
    exact .inr rfl
  · exact .inl rfl

end UGDS
