import UGDS.Nvm.Cmd
import UGDS.Nvm.Ctrl
import UGDS.Nvm.QueuePair

/-!
# UGDS.Nvm.Admin

Admin commands (`rpc.cpp`, `admin.cpp`): one command at a time on the admin queue pair, and the
functions that create and delete I/O queues.

A result is the source's `int`: 0, a positive errno, or the negated status of the completion. The
controller keeps, for each queue number, the base address of the I/O queue it has under that number
(`QTable`); it changes when a Create or Delete command is completed with status 0.

* `nvmRawRpc_idle`: on an idle pair a command either times out, or its own completion is returned.
* `Called`: what one call can do, and `Called.table`: what it does to the controller's queues.
* `nvmAdminQueueCreate_called`: creating a queue, and likewise for the other calls.
-/

namespace UGDS
namespace Nvm

/-! ## Commands -/

/-- `*NVM_CMD_CID(cmd) = cid`. -/
def NvmCmd.withCid (c : NvmCmd) (cid : BitVec 16) : NvmCmd :=
  c.set 0 ((c.dword 0 &&& 0xffff#32) ||| (cid.setWidth 32 <<< 16))

/-- The queue number of a Create or Delete command. -/
def NvmCmd.qid (c : NvmCmd) : Nat := ((c.dword 10).setWidth 16 : BitVec 16).toNat

def adminHeader (opcode : BitVec 8) (nsId : BitVec 32) : NvmCmd :=
  nvmCmdHeader NvmCmd.zero 0 opcode nsId

/-- `admin_cq_create`. -/
def adminCqCreate (cq : NvmQueue) (ioaddr : BitVec 64) (needPrp : Bool) : NvmCmd :=
  ((nvmCmdDataPtr (adminHeader NVM_ADMIN_CREATE_CQ 0) ioaddr 0).set 10
    ((BitVec.ofNat 32 (cq.qs - 1) <<< 16) ||| BitVec.ofNat 32 cq.no)).set 11
    (if needPrp then 0#32 else 1#32)

/-- `admin_sq_create`. -/
def adminSqCreate (sq cq : NvmQueue) (ioaddr : BitVec 64) (needPrp : Bool) : NvmCmd :=
  ((nvmCmdDataPtr (adminHeader NVM_ADMIN_CREATE_SQ 0) ioaddr 0).set 10
    ((BitVec.ofNat 32 (sq.qs - 1) <<< 16) ||| BitVec.ofNat 32 sq.no)).set 11
    ((BitVec.ofNat 32 cq.no <<< 16) ||| (if needPrp then 0#32 else 1#32))

/-- `admin_cq_delete`. -/
def adminCqDelete (cq : NvmQueue) : NvmCmd :=
  (adminHeader NVM_ADMIN_DELETE_CQ 0).set 10 (BitVec.ofNat 32 cq.no &&& 0xffff#32)

/-- `admin_sq_delete`. -/
def adminSqDelete (sq : NvmQueue) : NvmCmd :=
  (adminHeader NVM_ADMIN_DELETE_SQ 0).set 10 (BitVec.ofNat 32 sq.no &&& 0xffff#32)

/-- `admin_identify_ctrl`. -/
def adminIdentifyCtrl (ioaddr : BitVec 64) : NvmCmd :=
  ((nvmCmdDataPtr (adminHeader NVM_ADMIN_IDENTIFY 0) ioaddr 0).set 10 0x01#32).set 11 0#32

/-- `admin_identify_ns`. -/
def adminIdentifyNs (nsId : BitVec 32) (ioaddr : BitVec 64) : NvmCmd :=
  ((nvmCmdDataPtr (adminHeader NVM_ADMIN_IDENTIFY nsId) ioaddr 0).set 10 0#32).set 11 0#32

/-- `admin_current_num_queues` with `set`. -/
def adminSetNumQueues (nCqs nSqs : Nat) : NvmCmd :=
  ((nvmCmdDataPtr (adminHeader NVM_ADMIN_SET_FEATURES 0) 0 0).set 10 0x07#32).set 11
    ((BitVec.ofNat 32 (nCqs - 1) <<< 16) ||| BitVec.ofNat 32 (nSqs - 1))

/-! ## The controller's I/O queues -/

/-- The base address under each queue number. -/
structure QTable where
  sqs : Nat → Option (BitVec 64)
  cqs : Nat → Option (BitVec 64)

/-- After a reset there are no I/O queues. -/
def QTable.empty : QTable := ⟨fun _ => none, fun _ => none⟩

/-- A command takes effect. -/
def QTable.exec (tb : QTable) (c : NvmCmd) : QTable :=
  if c.opcode = NVM_ADMIN_CREATE_SQ then
    { tb with sqs := Function.update tb.sqs c.qid (some c.prp1) }
  else if c.opcode = NVM_ADMIN_DELETE_SQ then
    { tb with sqs := Function.update tb.sqs c.qid none }
  else if c.opcode = NVM_ADMIN_CREATE_CQ then
    { tb with cqs := Function.update tb.cqs c.qid (some c.prp1) }
  else if c.opcode = NVM_ADMIN_DELETE_CQ then
    { tb with cqs := Function.update tb.cqs c.qid none }
  else tb

/-- A command is completed: it takes effect if its status is 0. -/
def QTable.completed (tb : QTable) (p : Post) : QTable :=
  if p.cpl.status = 0 then tb.exec p.cmd else tb

section Effect

variable (tb : QTable)

theorem setWidth_dword10 (a : BitVec 32) (no : Nat) :
    (((a <<< 16) ||| BitVec.ofNat 32 no).setWidth 16 : BitVec 16).toNat = u16 no := by
  have h0 : ((a <<< 16).setWidth 16 : BitVec 16) = 0#16 := by
    apply BitVec.eq_of_getLsbD_eq
    intro i hi
    simp [hi]
  rw [BitVec.setWidth_or, h0, BitVec.zero_or]
  simp only [BitVec.toNat_setWidth, BitVec.toNat_ofNat, u16]
  omega

/-- Two 16-bit values in one dword. -/
theorem halves_toNat {hi lo : Nat} (hh : hi < 2 ^ 16) (hl : lo < 2 ^ 16) :
    ((BitVec.ofNat 32 hi <<< 16) ||| BitVec.ofNat 32 lo).toNat = hi * 2 ^ 16 + lo := by
  have hlow : lo % 2 ^ 32 < 2 ^ 16 := by omega
  simp only [BitVec.toNat_or, BitVec.toNat_shiftLeft, BitVec.toNat_ofNat]
  rw [Nat.shiftLeft_eq, Nat.mod_eq_of_lt (by omega : hi % 2 ^ 32 * 2 ^ 16 < 2 ^ 32),
    ← Nat.shiftLeft_eq, ← Nat.shiftLeft_add_eq_or_of_lt hlow, Nat.shiftLeft_eq]
  omega

theorem setWidth_mask (no : Nat) :
    ((BitVec.ofNat 32 no &&& 0xffff#32).setWidth 16 : BitVec 16).toNat = u16 no := by
  have hm : ((0xffff#32).setWidth 16 : BitVec 16) = BitVec.allOnes 16 := by decide
  rw [BitVec.setWidth_and, hm, BitVec.and_allOnes]
  simp only [BitVec.toNat_setWidth, BitVec.toNat_ofNat, u16]
  omega

theorem NvmCmd.opcode_withCid (c : NvmCmd) (cid : BitVec 16) :
    (c.withCid cid).opcode = c.opcode := by
  simp only [NvmCmd.opcode, NvmCmd.withCid, NvmCmd.set_dword]
  apply BitVec.eq_of_getLsbD_eq
  intro i hi
  have h16 : i < 16 := by omega
  have h32 : i < 32 := by omega
  interval_cases i <;> simp

/-- The identifier has no part in a command's effect. -/
theorem QTable.exec_withCid (c : NvmCmd) (cid : BitVec 16) :
    tb.exec (c.withCid cid) = tb.exec c := by
  have hq : (c.withCid cid).qid = c.qid := rfl
  have hp : (c.withCid cid).prp1 = c.prp1 := rfl
  simp only [exec, c.opcode_withCid, hq, hp]

theorem adminCqCreate_opcode (cq : NvmQueue) (ioaddr : BitVec 64) (needPrp : Bool) :
    (adminCqCreate cq ioaddr needPrp).opcode = NVM_ADMIN_CREATE_CQ := by
  cases needPrp <;> rfl

theorem adminCqCreate_qid (cq : NvmQueue) (ioaddr : BitVec 64) (needPrp : Bool) :
    (adminCqCreate cq ioaddr needPrp).qid = u16 cq.no := by
  simp only [NvmCmd.qid, adminCqCreate, NvmCmd.set_dword]
  exact setWidth_dword10 _ _

theorem adminSqCreate_opcode (sq cq : NvmQueue) (ioaddr : BitVec 64) (needPrp : Bool) :
    (adminSqCreate sq cq ioaddr needPrp).opcode = NVM_ADMIN_CREATE_SQ := by
  cases needPrp <;> rfl

theorem adminSqCreate_qid (sq cq : NvmQueue) (ioaddr : BitVec 64) (needPrp : Bool) :
    (adminSqCreate sq cq ioaddr needPrp).qid = u16 sq.no := by
  simp only [NvmCmd.qid, adminSqCreate, NvmCmd.set_dword]
  exact setWidth_dword10 _ _

theorem adminCqDelete_qid (cq : NvmQueue) : (adminCqDelete cq).qid = u16 cq.no := by
  simp only [NvmCmd.qid, adminCqDelete, NvmCmd.set_dword]
  exact setWidth_mask _

theorem adminSqDelete_qid (sq : NvmQueue) : (adminSqDelete sq).qid = u16 sq.no := by
  simp only [NvmCmd.qid, adminSqDelete, NvmCmd.set_dword]
  exact setWidth_mask _

theorem adminIdentifyNs_opcode (nsId : BitVec 32) (ioaddr : BitVec 64) :
    (adminIdentifyNs nsId ioaddr).opcode = NVM_ADMIN_IDENTIFY := by
  simp [NvmCmd.opcode, adminIdentifyNs, nvmCmdDataPtr, adminHeader, nvmCmdHeader,
    NvmCmd.set_dword, NVM_ADMIN_IDENTIFY]

theorem QTable.exec_cqCreate (cq : NvmQueue) (ioaddr : BitVec 64) (needPrp : Bool) :
    tb.exec (adminCqCreate cq ioaddr needPrp) =
      { tb with cqs := Function.update tb.cqs (u16 cq.no) (some ioaddr) } := by
  have hp : (adminCqCreate cq ioaddr needPrp).prp1 = ioaddr := by
    simp only [NvmCmd.prp1, adminCqCreate, nvmCmdDataPtr, NvmCmd.set_dword]
    exact split_append ioaddr
  simp only [exec, adminCqCreate_opcode, adminCqCreate_qid, hp]
  rfl

theorem QTable.exec_sqCreate (sq cq : NvmQueue) (ioaddr : BitVec 64) (needPrp : Bool) :
    tb.exec (adminSqCreate sq cq ioaddr needPrp) =
      { tb with sqs := Function.update tb.sqs (u16 sq.no) (some ioaddr) } := by
  have hp : (adminSqCreate sq cq ioaddr needPrp).prp1 = ioaddr := by
    simp only [NvmCmd.prp1, adminSqCreate, nvmCmdDataPtr, NvmCmd.set_dword]
    exact split_append ioaddr
  simp only [exec, adminSqCreate_opcode, adminSqCreate_qid, hp]
  rfl

theorem QTable.exec_cqDelete (cq : NvmQueue) :
    tb.exec (adminCqDelete cq) = { tb with cqs := Function.update tb.cqs (u16 cq.no) none } := by
  have hop : (adminCqDelete cq).opcode = NVM_ADMIN_DELETE_CQ := rfl
  simp only [exec, hop, adminCqDelete_qid]
  rfl

theorem QTable.exec_sqDelete (sq : NvmQueue) :
    tb.exec (adminSqDelete sq) = { tb with sqs := Function.update tb.sqs (u16 sq.no) none } := by
  have hop : (adminSqDelete sq).opcode = NVM_ADMIN_DELETE_SQ := rfl
  simp only [exec, hop, adminSqDelete_qid]
  rfl

end Effect

/-! ## One command at a time -/

/-- The admin queue pair of a `struct local_admin` and the number of the next poll. -/
structure Admin where
  t : Nat
  pair : Qp

/-- `execute_command`. `timeout` is in milliseconds; `nvm_cq_dequeue_block` polls once, and again
after each millisecond. -/
def executeCommand (dev : Device) (timeout : Nat) (a : Admin) (cmd : NvmCmd) :
    Except Errno NvmCpl × Admin :=
  match a.pair.enqueue with
  | none => (.error .EAGAIN, a)
  | some (slot, qp) =>
    let cmd := cmd.withCid (nvmDefaultCid qp.sq.q)
    match busyPoll dev (delays timeout) a.t (qp.put slot cmd).submit with
    | (none, t, qp) => (.error .ETIME, ⟨t, qp⟩)
    | (some cpl, t, qp) => (.ok cpl, ⟨t, qp.retire⟩)

/-- `NVM_ERR_PACK`. -/
def nvmErrPack : Except Errno NvmCpl → Int
  | .error e => e.code
  | .ok cpl => -cpl.status.toNat

theorem nvmErrPack_ok (cpl : NvmCpl) : nvmErrPack (.ok cpl) = 0 ↔ cpl.status = 0 := by
  rw [nvmErrPack, Int.neg_eq_zero, Int.natCast_eq_zero, ← BitVec.toNat_inj]
  rfl

/-- `nvm_raw_rpc` on a local reference: the packed result and the completion, which the callers
have zeroed. -/
def nvmRawRpc (dev : Device) (timeout : Nat) (a : Admin) (cmd : NvmCmd) : Int × NvmCpl × Admin :=
  match executeCommand dev timeout a cmd with
  | (.error e, a) => (nvmErrPack (.error e), .zero, a)
  | (.ok cpl, a) => (nvmErrPack (.ok cpl), cpl, a)

/-- The command `cmd` was completed with `cpl`, and nothing else was posted. -/
structure Answered (a a' : Admin) (cmd : NvmCmd) (cpl : NvmCpl) : Prop where
  idle : a'.pair.Idle
  posted : ∃ k cid prp, a'.pair.posted = a.pair.posted ++ [⟨k, cmd.withCid cid, cpl, prp⟩]

/-- On an idle pair: the wait runs out with nothing posted, or the command's own completion is
returned and the pair is idle again. -/
theorem nvmRawRpc_idle (dev : Device) (timeout : Nat) {a : Admin} (h : a.pair.Idle)
    (cmd : NvmCmd) :
    let x := nvmRawRpc dev timeout a cmd
    (x.1 = Errno.ETIME.code ∧ x.2.2.pair.posted = a.pair.posted) ∨
      x.1 = nvmErrPack (.ok x.2.1) ∧ dev.Sends x.2.1 ∧ Answered a x.2.2 cmd x.2.1 := by
  obtain ⟨slot, r, he, hi⟩ := h.issue h.has_room
  have hq := hi a.pair.prp (cmd.withCid (nvmDefaultCid r.q))
  simp only [nvmRawRpc, executeCommand, he]
  rcases h.exec dev hq rfl rfl (delays timeout) a.t with
    ⟨t', q, hp, -, -, hpo⟩ | ⟨cpl, t', q, hp, hsend, hidle, -, -, hpo⟩
  · left
    erw [hp]
    exact ⟨rfl, hpo⟩
  · right
    erw [hp]
    exact ⟨rfl, hsend, hidle, _, _, _, hpo⟩

/-- What a call that sends at most one command does to an idle pair: it is refused before anything
is sent, or the wait runs out, or the command is answered. -/
inductive Called (a a' : Admin) (cmd : NvmCmd) (r : Int) : Prop where
  | refused : r ≠ 0 → r ≠ Errno.ETIME.code → a' = a → Called a a' cmd r
  | timeout : r = Errno.ETIME.code → a'.pair.posted = a.pair.posted → Called a a' cmd r
  | answered (cpl : NvmCpl) : r = nvmErrPack (.ok cpl) → Answered a a' cmd cpl → Called a a' cmd r

/-- The controller's queues after what was completed from `a` to `a'`. -/
def QTable.after (tb : QTable) (a a' : Admin) : QTable :=
  (a'.pair.posted.drop a.pair.posted.length).foldl QTable.completed tb

theorem QTable.after_same (tb : QTable) (t : Nat) (p : Qp) : tb.after ⟨t, p⟩ ⟨t, p⟩ = tb := by
  simp [QTable.after]

section Called

variable {a a' : Admin} {cmd : NvmCmd} {r : Int}

theorem Called.table (h : Called a a' cmd r) (tb : QTable) :
    tb.after a a' = if r = 0 then tb.exec cmd else tb := by
  cases h with
  | refused h0 _ he => simp [QTable.after, he, h0]
  | timeout ht hp =>
    have h0 : r ≠ 0 := by rw [ht]; decide
    simp [QTable.after, hp, h0]
  | answered cpl hr ha =>
    obtain ⟨k, cid, prp, hp⟩ := ha.posted
    rw [QTable.after, hp, List.drop_left, List.foldl_cons, List.foldl_nil, QTable.completed, hr]
    by_cases hs : cpl.status = 0
    · rw [if_pos hs, if_pos ((nvmErrPack_ok cpl).mpr hs), QTable.exec_withCid]
    · rw [if_neg hs, if_neg (mt (nvmErrPack_ok cpl).mp hs)]

theorem Called.einval (a : Admin) (cmd : NvmCmd) : Called a a cmd Errno.EINVAL.code :=
  .refused (by decide) (by decide) rfl

/-- A call that does not time out leaves the pair idle. -/
theorem Called.idle (h : Called a a' cmd r) (hi : a.pair.Idle) (hr : r ≠ Errno.ETIME.code) :
    a'.pair.Idle := by
  cases h with
  | refused _ _ he => rw [he]; exact hi
  | timeout ht _ => exact absurd ht hr
  | answered cpl _ ha => exact ha.idle

theorem nvmRawRpc_called (dev : Device) (timeout : Nat) (hi : a.pair.Idle) (cmd : NvmCmd) :
    Called a (nvmRawRpc dev timeout a cmd).2.2 cmd (nvmRawRpc dev timeout a cmd).1 := by
  rcases nvmRawRpc_idle dev timeout hi cmd with ⟨hr, hp⟩ | ⟨hr, -, ha⟩
  · exact .timeout hr hp
  · exact .answered _ hr ha

end Called

/-! ## Creating and deleting queues -/

/-- `NVM_SQ_PAGES` and `NVM_CQ_PAGES`, for entries of `es` bytes. -/
def nvmQueuePages (ctrl : NvmCtrl) (es qs : Nat) : Nat := u16 (qs - 1) * es / ctrl.pageSize + 1

/-- The checks of `nvm_admin_cq_create` and `nvm_admin_sq_create` and the cleared queue. `offset` is
in the range of the handle's addresses when it is used. -/
def nvmQueueCheck (ctrl : NvmCtrl) (isCq : Bool) (id : Nat) (dma : NvmDma) (offset qs : Nat) :
    Except Errno NvmQueue :=
  let es := if isCq then 16 else 64
  let qs := if qs = 0 then min (dma.pageSize / es) ctrl.maxQs else qs
  let nPages := nvmQueuePages ctrl es qs
  if id = 0 then .error .EINVAL
  else if qs < 2 ∨ qs > 0x10000 ∨ qs > ctrl.maxQs then .error .EINVAL
  else if dma.vaddr = 0 then .error .EINVAL
  else if nPages = 0 ∨ nPages > dma.nIoaddrs ∨ offset > dma.nIoaddrs ∨
      u64 (offset + nPages) > dma.nIoaddrs then .error .EINVAL
  else
    nvmQueueClear ctrl isCq id qs dma.isLocal (u64 (dma.vaddr + dma.pageSize * offset))
      (dma.ioaddrs.getD offset 0#64)

/-- `nvm_admin_cq_create` and `nvm_admin_sq_create`: the result, the queue when it is 0, and the
admin pair. `build` is the command for a queue at an address. -/
def nvmAdminQueueCreate (dev : Device) (ctrl : NvmCtrl) (a : Admin) (isCq : Bool) (id : Nat)
    (dma : NvmDma) (offset qs : Nat) (build : NvmQueue → BitVec 64 → NvmCmd) :
    Int × Option NvmQueue × Admin :=
  match nvmQueueCheck ctrl isCq id dma offset qs with
  | .error e => (e.code, none, a)
  | .ok queue =>
    let x := nvmRawRpc dev ctrl.timeout a (build queue (dma.ioaddrs.getD offset 0#64))
    if x.1 ≠ 0 then (x.1, none, x.2.2) else (0, some queue, x.2.2)

/-- `nvm_admin_cq_create`. -/
def nvmAdminCqCreate (dev : Device) (ctrl : NvmCtrl) (a : Admin) (id : Nat) (dma : NvmDma)
    (offset qs : Nat) (needPrp : Bool) : Int × Option NvmQueue × Admin :=
  nvmAdminQueueCreate dev ctrl a true id dma offset qs fun q ioaddr =>
    adminCqCreate q ioaddr needPrp

/-- `nvm_admin_sq_create`. -/
def nvmAdminSqCreate (dev : Device) (ctrl : NvmCtrl) (a : Admin) (cq : NvmQueue) (id : Nat)
    (dma : NvmDma) (offset qs : Nat) (needPrp : Bool) : Int × Option NvmQueue × Admin :=
  nvmAdminQueueCreate dev ctrl a false id dma offset qs fun q ioaddr =>
    adminSqCreate q cq ioaddr needPrp

/-- `nvm_admin_cq_delete`. -/
def nvmAdminCqDelete (dev : Device) (timeout : Nat) (a : Admin) (cq : NvmQueue) :
    Int × NvmQueue × Admin :=
  if cq.db = none then (Errno.EINVAL.code, cq, a)
  else
    let x := nvmRawRpc dev timeout a (adminCqDelete cq)
    if x.1 ≠ 0 then (x.1, cq, x.2.2) else (0, { cq with db := none }, x.2.2)

/-- `nvm_admin_sq_delete`. -/
def nvmAdminSqDelete (dev : Device) (timeout : Nat) (a : Admin) (sq cq : NvmQueue) :
    Int × NvmQueue × Admin :=
  if cq.db = none then (Errno.EINVAL.code, sq, a)
  else if sq.db = none then (Errno.EINVAL.code, sq, a)
  else
    let x := nvmRawRpc dev timeout a (adminSqDelete sq)
    if x.1 ≠ 0 then (x.1, sq, x.2.2) else (0, { sq with db := none }, x.2.2)

/-- The part of `nvm_admin_ctrl_info` and `nvm_admin_ns_info` that talks to the controller; the
page at `ioaddr` is decoded where its contents are known. -/
def nvmAdminIdentify (dev : Device) (timeout : Nat) (a : Admin) (ioaddr : BitVec 64)
    (cmd : NvmCmd) : Int × Admin :=
  if ioaddr = 0 then (Errno.EINVAL.code, a)
  else
    let x := nvmRawRpc dev timeout a cmd
    (x.1, x.2.2)

/-- `nvm_admin_request_num_queues`: the result, `n_cqs` and `n_sqs`. -/
def nvmAdminRequestNumQueues (dev : Device) (timeout : Nat) (a : Admin) (nCqs nSqs : Nat) :
    Int × Nat × Nat × Admin :=
  if nCqs = 0 ∨ nSqs = 0 then (Errno.EINVAL.code, nCqs, nSqs, a)
  else
    let x := nvmRawRpc dev timeout a (adminSetNumQueues nCqs nSqs)
    if x.1 ≠ 0 then (x.1, nCqs, nSqs, x.2.2)
    else
      let dw0 := (x.2.1.dword 0).toNat
      (0, u16 (dw0 % 2 ^ 16 + 1), u16 (dw0 / 2 ^ 16 + 1), x.2.2)

section Spec

variable {a : Admin} (dev : Device)

theorem nvmQueueClear_error {ctrl : NvmCtrl} {cq loc : Bool} {no qs v : Nat} {addr : BitVec 64}
    {e : Errno} (h : nvmQueueClear ctrl cq no qs loc v addr = .error e) : e = .EINVAL := by
  simp only [nvmQueueClear] at h
  split at h <;> cases h
  rfl

theorem nvmQueueCheck_error {ctrl : NvmCtrl} {isCq : Bool} {id : Nat} {dma : NvmDma}
    {offset qs : Nat} {e : Errno} (h : nvmQueueCheck ctrl isCq id dma offset qs = .error e) :
    e = .EINVAL := by
  simp only [nvmQueueCheck] at h
  generalize (if isCq = true then 16 else 64) = es at h
  generalize (if qs = 0 then min (dma.pageSize / es) ctrl.maxQs else qs) = n at h
  split at h
  · cases h; rfl
  split at h
  · cases h; rfl
  split at h
  · cases h; rfl
  split at h
  · cases h; rfl
  · exact nvmQueueClear_error h

/-- A queue that passes is cleared for the given number, size and memory, of which there is at
least a page. -/
theorem nvmQueueCheck_ok {ctrl : NvmCtrl} {isCq : Bool} {id : Nat} {dma : NvmDma}
    {offset qs : Nat} {q : NvmQueue} (hqs : qs ≠ 0)
    (h : nvmQueueCheck ctrl isCq id dma offset qs = .ok q) :
    0 < dma.nIoaddrs ∧ ∃ vaddr,
      nvmQueueClear ctrl isCq id qs dma.isLocal vaddr (dma.ioaddrs.getD offset 0#64) = .ok q := by
  simp only [nvmQueueCheck, if_neg hqs] at h
  generalize (if isCq = true then 16 else 64) = es at h
  split at h
  · cases h
  split at h
  · cases h
  split at h
  · cases h
  split at h
  · cases h
  · rename_i hp
    have hle := Nat.not_lt.mp (not_or.mp (not_or.mp hp).2).1
    exact ⟨(Nat.succ_pos _).trans_le hle, _, h⟩

/-- A queue is handed out exactly when the result is 0; then the command that `build` makes for it
was completed with status 0. -/
theorem nvmAdminQueueCreate_called (hi : a.pair.Idle) (ctrl : NvmCtrl) (isCq : Bool) (id : Nat)
    (dma : NvmDma) (offset qs : Nat) (build : NvmQueue → BitVec 64 → NvmCmd) :
    let x := nvmAdminQueueCreate dev ctrl a isCq id dma offset qs build
    ∃ cmd, Called a x.2.2 cmd x.1 ∧
      ((x.1 ≠ 0 ∧ x.2.1 = none) ∨
        x.1 = 0 ∧ ∃ q, x.2.1 = some q ∧ nvmQueueCheck ctrl isCq id dma offset qs = .ok q ∧
          cmd = build q (dma.ioaddrs.getD offset 0#64)) := by
  unfold nvmAdminQueueCreate
  split
  · rename_i e he
    have he' := nvmQueueCheck_error he
    subst he'
    exact ⟨.zero, .einval a _, .inl ⟨(by decide : Errno.EINVAL.code ≠ 0), rfl⟩⟩
  · rename_i q hq
    have hcall := nvmRawRpc_called dev ctrl.timeout hi (build q (dma.ioaddrs.getD offset 0#64))
    simp only
    split
    · rename_i hr
      exact ⟨_, hcall, .inl ⟨hr, rfl⟩⟩
    · rename_i hr
      rw [not_not] at hr
      rw [hr] at hcall
      exact ⟨_, hcall, .inr ⟨rfl, q, rfl, hq, rfl⟩⟩

theorem nvmAdminCqDelete_called (hi : a.pair.Idle) (timeout : Nat) (cq : NvmQueue) :
    let x := nvmAdminCqDelete dev timeout a cq
    Called a x.2.2 (adminCqDelete cq) x.1 := by
  have hcall := nvmRawRpc_called dev timeout hi (adminCqDelete cq)
  simp only [nvmAdminCqDelete]
  split
  · exact .einval a _
  split
  · exact hcall
  · rename_i hr
    rw [not_not] at hr
    rw [hr] at hcall
    exact hcall

theorem nvmAdminSqDelete_called (hi : a.pair.Idle) (timeout : Nat) (sq cq : NvmQueue) :
    let x := nvmAdminSqDelete dev timeout a sq cq
    Called a x.2.2 (adminSqDelete sq) x.1 := by
  have hcall := nvmRawRpc_called dev timeout hi (adminSqDelete sq)
  simp only [nvmAdminSqDelete]
  split
  · exact .einval a _
  split
  · exact .einval a _
  split
  · exact hcall
  · rename_i hr
    rw [not_not] at hr
    rw [hr] at hcall
    exact hcall

theorem nvmAdminIdentify_called (hi : a.pair.Idle) (timeout : Nat) (ioaddr : BitVec 64)
    (cmd : NvmCmd) :
    let x := nvmAdminIdentify dev timeout a ioaddr cmd
    Called a x.2 cmd x.1 := by
  simp only [nvmAdminIdentify]
  split
  · exact .einval a _
  · exact nvmRawRpc_called dev timeout hi cmd

/-- A device that does nothing answers nothing. -/
theorem nvmAdminIdentify_silent (hi : a.pair.Idle) (timeout : Nat) (ioaddr : BitVec 64)
    (cmd : NvmCmd) : (nvmAdminIdentify .silent timeout a ioaddr cmd).1 ≠ 0 := by
  simp only [nvmAdminIdentify]
  split
  · exact (by decide : Errno.EINVAL.code ≠ 0)
  · rcases nvmRawRpc_idle .silent timeout hi cmd with ⟨hr, -⟩ | ⟨-, ⟨t, qp, i, e, he, -⟩, -⟩
    · simp only [hr]
      decide
    · simp [Device.silent] at he

theorem nvmAdminRequestNumQueues_called (hi : a.pair.Idle) (timeout nCqs nSqs : Nat) :
    let x := nvmAdminRequestNumQueues dev timeout a nCqs nSqs
    Called a x.2.2.2 (adminSetNumQueues nCqs nSqs) x.1 := by
  have hcall := nvmRawRpc_called dev timeout hi (adminSetNumQueues nCqs nSqs)
  simp only [nvmAdminRequestNumQueues]
  split
  · exact .einval a _
  split
  · exact hcall
  · rename_i hr
    rw [not_not] at hr
    rw [hr] at hcall
    exact hcall

/-- Only Create and Delete commands change the controller's queues. -/
theorem QTable.exec_identify (tb : QTable) (nsId : BitVec 32) (ioaddr : BitVec 64) :
    tb.exec (adminIdentifyCtrl ioaddr) = tb ∧ tb.exec (adminIdentifyNs nsId ioaddr) = tb := by
  exact ⟨rfl, by simp only [exec, adminIdentifyNs_opcode]; rfl⟩

theorem QTable.exec_setNumQueues (tb : QTable) (nCqs nSqs : Nat) :
    tb.exec (adminSetNumQueues nCqs nSqs) = tb := rfl

end Spec

end Nvm
end UGDS
