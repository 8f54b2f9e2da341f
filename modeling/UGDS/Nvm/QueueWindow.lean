import UGDS.Nvm.Admin

/-!
# UGDS.Nvm.QueueWindow

The memory of a queue that `nvm_admin_cq_create` or `nvm_admin_sq_create` (`admin.cpp`) has created.

The queue starts at page `offset` of a DMA handle. `NVM_CQ_PAGES` and `NVM_SQ_PAGES` round
`(qs - 1) * es` down to pages and add one, which is enough because entries do not cross pages, and cast
`qs - 1` to 16 bits, which changes nothing because `qs` is at most 65536 by then.

* `queuePages_covers`: the pages hold all entries.
* `nvmQueueCheck_inside`: what the checks establish.
* `queue_slots_inside`: all slots of a created queue are inside the handle, and the command says how
  many there are.
-/

namespace UGDS
namespace Nvm

/-- The number of entries that a Create command announces. The field is 0's based. -/
def NvmCmd.qsize (c : NvmCmd) : Nat := (c.dword 10).toNat / 2 ^ 16 + 1

/-- All slots of the queue are inside the handle, and the values that were computed on the way have
not wrapped around. The address is that of the first page when the handle's memory ends before the end
of the address space. -/
structure SlotsInside (ctrl : NvmCtrl) (dma : NvmDma) (offset : Nat) (q : NvmQueue) : Prop where
  slots : ∀ k < q.qs, offset * dma.pageSize + (k + 1) * q.es ≤ dma.nIoaddrs * dma.pageSize
  entries : u16 (q.qs - 1) = q.qs - 1
  bytes : (q.qs - 1) * q.es < 2 ^ 64
  pages : offset + nvmQueuePages ctrl q.es q.qs < 2 ^ 64
  start : dma.pageSize * offset < 2 ^ 64
  vaddr : dma.vaddr + dma.nIoaddrs * dma.pageSize ≤ 2 ^ 64 →
    q.vaddr = dma.vaddr + dma.pageSize * offset

/-! ## The checks -/

section Checks

variable {ctrl : NvmCtrl} {dma : NvmDma} {isCq : Bool} {id offset qs : Nat} {q : NvmQueue}

/-- Entries of `es` bytes, of which a whole number fits a page. -/
theorem queuePages_covers {es n : Nat} (hpos : 0 < ctrl.pageSize) (hpage : es ∣ ctrl.pageSize)
    (hn : 1 ≤ n) (hle : n ≤ 2 ^ 16) : n * es ≤ nvmQueuePages ctrl es n * ctrl.pageSize := by
  obtain ⟨m, hm⟩ := hpage
  have hes : 0 < es := Nat.pos_of_ne_zero fun h0 => by rw [hm, h0, Nat.zero_mul] at hpos; cases hpos
  have hm0 : 0 < m := Nat.pos_of_ne_zero fun h0 => by rw [hm, h0, Nat.mul_zero] at hpos; cases hpos
  rw [nvmQueuePages, u16, Nat.mod_eq_of_lt (by omega), hm, Nat.mul_comm es m,
    Nat.mul_div_mul_right _ _ hes, ← Nat.mul_assoc]
  refine Nat.mul_le_mul_right es ?_
  -- `n - 1` is below a multiple of `m`, so `n` is at most that multiple
  have hlt : n - 1 < (n - 1) / m * m + m := Nat.lt_div_mul_add hm0
  rw [Nat.succ_mul]
  omega

/-- A queue that passes the checks, for any offset and any requested size. -/
theorem nvmQueueCheck_inside {j : Nat} (hj : 12 ≤ j) (hctrl : ctrl.pageSize = 2 ^ j)
    (hdma : dma.pageSize = ctrl.pageSize) (hsize : dma.nIoaddrs * dma.pageSize < 2 ^ 64)
    (h : nvmQueueCheck ctrl isCq id dma offset qs = .ok q) :
    SlotsInside ctrl dma offset q ∧ q.no = id ∧ 1 ≤ q.qs ∧ q.qs ≤ 2 ^ 16 := by
  have hpos : 0 < ctrl.pageSize := by rw [hctrl]; exact Nat.two_pow_pos j
  simp only [nvmQueueCheck] at h
  generalize hes : (if isCq = true then 16 else 64) = es at h
  generalize (if qs = 0 then min (dma.pageSize / es) ctrl.maxQs else qs) = n at h
  split at h
  · cases h
  split at h
  · cases h
  rename_i hqs
  split at h
  · cases h
  split at h
  · cases h
  rename_i hpages
  obtain ⟨-, hq⟩ := nvmQueueClear_ok h
  have hno : q.no = id := by rw [hq]
  have hv := congrArg NvmQueue.vaddr hq
  obtain rfl : q.qs = n := by rw [hq]
  obtain rfl : q.es = es := by rw [hq, ← hes]
  have hdvd : q.es ∣ ctrl.pageSize ∧ q.es ≤ 64 := by
    rw [hctrl, ← hes]
    cases isCq
    · exact ⟨pow_dvd_pow 2 (by omega : 6 ≤ j), by decide⟩
    · exact ⟨pow_dvd_pow 2 (by omega : 4 ≤ j), by decide⟩
  have hcover := queuePages_covers hpos hdvd.1 (by omega : 1 ≤ q.qs) (by omega)
  -- both summands are at most the number of pages, so the sum of the check does not wrap around
  have hpage : 2 ≤ dma.pageSize := by
    rw [hdma, hctrl]
    exact Nat.le_self_pow (by omega) 2
  have hhalf : dma.nIoaddrs * 2 ≤ dma.nIoaddrs * dma.pageSize := Nat.mul_le_mul_left _ hpage
  have hsum : offset + nvmQueuePages ctrl q.es q.qs ≤ dma.nIoaddrs := by
    simp only [u64] at hpages
    omega
  have hend : offset * dma.pageSize + nvmQueuePages ctrl q.es q.qs * dma.pageSize ≤
      dma.nIoaddrs * dma.pageSize := by
    rw [← Nat.add_mul]
    exact Nat.mul_le_mul_right _ hsum
  rw [← hdma] at hcover
  have hbytes : (q.qs - 1) * q.es ≤ 2 ^ 16 * 64 := Nat.mul_le_mul (by omega) hdvd.2
  have hstart : dma.pageSize * offset < dma.nIoaddrs * dma.pageSize := by
    rw [Nat.mul_comm]
    exact Nat.mul_lt_mul_of_pos_right (by omega) (by omega)
  refine ⟨⟨fun k hk => ?_, ?_, by omega, by omega, by omega, fun hmem => ?_⟩, hno, by omega, by omega⟩
  · have hslot : (k + 1) * q.es ≤ q.qs * q.es := Nat.mul_le_mul_right _ hk
    omega
  · rw [u16]
    omega
  · rw [hv, u64, Nat.mod_eq_of_lt (by omega)]

end Checks

/-! ## The command -/

theorem Qp.devStep_cmds (qp : Qp) (act : DevAct) : (qp.devStep act).cmds = qp.cmds := by
  cases act with
  | fetch =>
    simp only [devStep]
    split <;> rfl
  | complete i e =>
    simp only [devStep]
    split
    · rfl
    · split <;> rfl

theorem Qp.foldl_devStep_cmds (acts : List DevAct) (qp : Qp) :
    (acts.foldl Qp.devStep qp).cmds = qp.cmds := by
  induction acts generalizing qp with
  | nil => rfl
  | cons act acts ih => rw [List.foldl_cons, ih, devStep_cmds]

theorem busyPoll_cmds (dev : Device) (spins t : Nat) (qp : Qp) :
    (busyPoll dev spins t qp).2.2.cmds = qp.cmds := by
  have hturn {t : Nat} {qp qp' : Qp} {o : Option NvmCpl} (h : (dev.tick t qp).dequeue = (o, qp')) :
      qp'.cmds = qp.cmds := by
    cases h
    exact Qp.foldl_devStep_cmds _ _
  induction spins generalizing t qp with
  | zero =>
    rw [busyPoll]
    split
    · exact hturn ‹_›
    · exact hturn ‹_›
  | succ spins ih =>
    rw [busyPoll]
    split
    · exact hturn ‹_›
    · exact (ih _ _).trans (hturn ‹_›)

/-- A call that returns 0 has submitted its command, whatever the state of the admin pair. -/
theorem nvmRawRpc_submits {dev : Device} {timeout : Nat} {a : Admin} {cmd : NvmCmd}
    (h : (nvmRawRpc dev timeout a cmd).1 = 0) :
    ∃ cid, (nvmRawRpc dev timeout a cmd).2.2.pair.cmds = a.pair.cmds ++ [cmd.withCid cid] := by
  unfold nvmRawRpc executeCommand at h ⊢
  cases he : a.pair.enqueue with
  | none =>
    simp only [he] at h
    exact absurd h (by decide)
  | some x =>
    obtain ⟨slot, qp⟩ := x
    obtain ⟨y, -, hy⟩ := Option.map_eq_some_iff.mp he
    cases hy
    simp only [he] at h ⊢
    have hpoll := busyPoll_cmds dev (delays timeout) a.t
      (({ a.pair with sq := y.2 } : Qp).put y.1 (cmd.withCid (nvmDefaultCid y.2.q))).submit
    generalize busyPoll dev (delays timeout) a.t _ = r at h hpoll ⊢
    obtain ⟨_ | cpl, t, q⟩ := r
    · exact absurd (show Errno.ETIME.code = 0 from h) (by decide)
    · exact ⟨_, hpoll⟩

/-! ## Creating queues -/

section Create

variable {ctrl : NvmCtrl} {dma : NvmDma} {isCq : Bool} {id offset qs : Nat} {q : NvmQueue}

/-- DWORD10 of both Create commands. -/
theorem NvmCmd.qsize_eq {cmd : NvmCmd}
    (hdw : cmd.dword 10 = (BitVec.ofNat 32 (q.qs - 1) <<< 16) ||| BitVec.ofNat 32 q.no)
    (hno : q.no < 2 ^ 16) (h1 : 1 ≤ q.qs) (h2 : q.qs ≤ 2 ^ 16) : cmd.qsize = q.qs := by
  rw [NvmCmd.qsize, hdw, halves_toNat (by omega) hno]
  omega

/-- The call has made a queue inside the handle, with a command for as many entries. -/
def Created (ctrl : NvmCtrl) (dma : NvmDma) (offset : Nat) (a : Admin)
    (x : Int × Option NvmQueue × Admin) : Prop :=
  ∃ q cmd, x.2.1 = some q ∧ SlotsInside ctrl dma offset q ∧
    x.2.2.pair.cmds = a.pair.cmds ++ [cmd] ∧ cmd.qsize = q.qs

theorem queueCreate_created {j : Nat} (hj : 12 ≤ j) (hctrl : ctrl.pageSize = 2 ^ j)
    (hdma : dma.pageSize = ctrl.pageSize) (hsize : dma.nIoaddrs * dma.pageSize < 2 ^ 64)
    (hid : id < 2 ^ 16) {dev : Device} {a : Admin} {build : NvmQueue → BitVec 64 → NvmCmd}
    (hbuild : ∀ q ioaddr cid, q.no < 2 ^ 16 → 1 ≤ q.qs → q.qs ≤ 2 ^ 16 →
      ((build q ioaddr).withCid cid).qsize = q.qs)
    (h : (nvmAdminQueueCreate dev ctrl a isCq id dma offset qs build).1 = 0) :
    Created ctrl dma offset a (nvmAdminQueueCreate dev ctrl a isCq id dma offset qs build) := by
  unfold nvmAdminQueueCreate at h ⊢
  cases hck : nvmQueueCheck ctrl isCq id dma offset qs with
  | error e =>
    simp only [hck] at h
    exact absurd h e.code_pos.ne'
  | ok q =>
    obtain ⟨hin, rfl, h1, h2⟩ := nvmQueueCheck_inside hj hctrl hdma hsize hck
    simp only [hck] at h ⊢
    by_cases hr : (nvmRawRpc dev ctrl.timeout a (build q (dma.ioaddrs.getD offset 0#64))).1 = 0
    · obtain ⟨cid, hcmds⟩ := nvmRawRpc_submits hr
      rw [if_neg (not_not.mpr hr)]
      exact ⟨q, _, rfl, hin, hcmds, hbuild q _ cid hid h1 h2⟩
    · rw [if_pos hr] at h
      exact absurd h hr

end Create

/-- For every handle with the controller's page size and less than `2 ^ 64` bytes, every offset, every
requested size, any controller and any state of the admin queue pair: a queue that was created has
its slots inside the handle, nothing has wrapped around, and the command announces its size. -/
theorem queue_slots_inside {ctrl : NvmCtrl} {dma : NvmDma} {j : Nat} (hj : 12 ≤ j)
    (hctrl : ctrl.pageSize = 2 ^ j) (hdma : dma.pageSize = ctrl.pageSize)
    (hsize : dma.nIoaddrs * dma.pageSize < 2 ^ 64) {id : Nat} (hid : id < 2 ^ 16) (offset qs : Nat)
    (dev : Device) (a : Admin) (needPrp : Bool) :
    ((nvmAdminCqCreate dev ctrl a id dma offset qs needPrp).1 = 0 →
        Created ctrl dma offset a (nvmAdminCqCreate dev ctrl a id dma offset qs needPrp)) ∧
      ∀ cq, (nvmAdminSqCreate dev ctrl a cq id dma offset qs needPrp).1 = 0 →
        Created ctrl dma offset a (nvmAdminSqCreate dev ctrl a cq id dma offset qs needPrp) := by
  refine ⟨fun h => ?_, fun cq h => ?_⟩
  · exact queueCreate_created hj hctrl hdma hsize hid
      (fun q ioaddr cid => NvmCmd.qsize_eq rfl) h
  · exact queueCreate_created hj hctrl hdma hsize hid
      (fun q ioaddr cid => NvmCmd.qsize_eq rfl) h

/-- An admin queue pair of a controller with 4 KiB pages. -/
def windowAdmin : Admin :=
  ⟨0, .create ⟨0, 64, 64, 0, 0, 0, true, true, some (sqDbl 0 0), 0x11000, 0x2000#64⟩
    ⟨0, 16, 256, 0, 0, 0, true, true, some (cqDbl 0 0), 0x10000, 0x1000#64⟩ 0⟩

/-- A completion queue of 65536 entries fills a handle of 256 pages exactly. -/
theorem queue_slots_inside_full :
    let ctrl : NvmCtrl := ⟨4096, 0, 0, 65536⟩
    let dma : NvmDma := ⟨0x20000, true, true, 4096, List.replicate 256 0x40000#64, 0⟩
    Created ctrl dma 0 windowAdmin (nvmAdminCqCreate .prompt ctrl windowAdmin 1 dma 0 65536 false) :=
  (queue_slots_inside (j := 12) (by decide) rfl rfl (by decide +kernel) (by decide : 1 < 2 ^ 16) 0
    65536 .prompt windowAdmin false).1 (by decide +kernel)

end Nvm
end UGDS
