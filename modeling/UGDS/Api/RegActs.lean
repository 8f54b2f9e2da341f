import UGDS.Api.Effect
import UGDS.Api.Rpc
import UGDS.Lib.Account

/-!
# UGDS.Api.RegActs

`uGDSHandleRegister` (`ugds_handle.cpp`) with a record of its calls (`RegAct`): allocations, mappings,
the admin reference, the admin commands that reached the submission queue, and what undoes them.

The functions have the names of those they follow, and they carry the buffers of a queue pair, which
`cleanup_qp` frees.

* `RegAct.call`: what a call acquires, releases and needs.
* `handleRegisterTraced_forget`: without the record it is `uGDSHandleRegister`, and likewise for the
  parts.
-/

namespace UGDS

open Nvm Lib Drv

/-! ## Calls -/

/-- The memory that a registration allocates and maps: that of the admin queues, and that of queue
pair `i`. -/
inductive RegMem where
  | aq
  | cq (i : Nat)
  | sq (i : Nat)
  | prp (i : Nat)
  deriving DecidableEq, Repr

/-- A call of a registration. Allocations and `nvm_ctrl_init` are there when they succeed; `cmd` is an
admin command that was submitted, with the result of the call that submitted it. `setFh` is the
assignment to `*fh`. -/
inductive RegAct where
  | ctrlInit
  | alloc (m : RegMem)
  | map (m : RegMem) (ok : Bool)
  | aqCreate (ok : Bool)
  | cmd (c : NvmCmd) (r : Int)
  | unmap (m : RegMem)
  | free (m : RegMem)
  | aqDestroy
  | ctrlFree
  | setFh

/-- What a registration holds. I/O queues have the numbers that the commands give them. -/
inductive RegRes where
  | ctrl
  | aqRef
  | buf (m : RegMem)
  | dma (m : RegMem)
  | cq (no : Nat)
  | sq (no : Nat)
  deriving DecidableEq, Repr

/-- The completion queue of a Create SQ command. -/
def Nvm.NvmCmd.cqid (c : NvmCmd) : Nat := (c.dword 11).toNat / 2 ^ 16

/-- A queue is there when its Create command has succeeded, and the Delete command gives it up
whatever comes of it. A submission queue needs its completion queue, which has the same number when
it is deleted. -/
def cmdCall (c : NvmCmd) (r : Int) : Call RegRes :=
  if c.opcode = NVM_ADMIN_CREATE_CQ then
    ⟨[.aqRef], if r = 0 then some (.acquire (.cq c.qid)) else none⟩
  else if c.opcode = NVM_ADMIN_CREATE_SQ then
    ⟨[.aqRef, .cq c.cqid], if r = 0 then some (.acquire (.sq c.qid)) else none⟩
  else if c.opcode = NVM_ADMIN_DELETE_SQ then
    ⟨[.aqRef, .cq c.qid], some (.release (.sq c.qid))⟩
  else if c.opcode = NVM_ADMIN_DELETE_CQ then ⟨[.aqRef], some (.release (.cq c.qid))⟩
  else ⟨[.aqRef], none⟩

theorem cmdCall_acquires (c : NvmCmd) (r : Int) : (cmdCall c r).acquires =
    if c.opcode = NVM_ADMIN_CREATE_CQ ∧ r = 0 then some (.cq c.qid)
    else if c.opcode = NVM_ADMIN_CREATE_SQ ∧ r = 0 then some (.sq c.qid) else none := by
  unfold cmdCall
  by_cases hr : r = 0
  · simp only [hr, if_true, and_true]
    split_ifs <;> rfl
  · simp only [hr, if_false, and_false]
    split_ifs <;> rfl

theorem cmdCall_releases (c : NvmCmd) (r : Int) : (cmdCall c r).releases =
    if c.opcode = NVM_ADMIN_DELETE_SQ then some (.sq c.qid)
    else if c.opcode = NVM_ADMIN_DELETE_CQ then some (.cq c.qid) else none := by
  have hnone (needs : List RegRes) (x : RegRes) :
      (Call.mk needs (if r = 0 then some (.acquire x) else none)).releases = none := by
    split <;> rfl
  unfold cmdCall
  by_cases hcq : c.opcode = NVM_ADMIN_CREATE_CQ
  · rw [if_pos hcq, hnone, hcq]
    rfl
  rw [if_neg hcq]
  by_cases hsq : c.opcode = NVM_ADMIN_CREATE_SQ
  · rw [if_pos hsq, hnone, hsq]
    rfl
  rw [if_neg hsq]
  split_ifs <;> rfl

/-- Memory is mapped for a controller, and unmapped before it is freed. -/
def RegAct.call : RegAct → Call RegRes
  | .ctrlInit => ⟨[], some (.acquire .ctrl)⟩
  | .alloc m => ⟨[], some (.acquire (.buf m))⟩
  | .map m ok => ⟨[.ctrl, .buf m], if ok then some (.acquire (.dma m)) else none⟩
  | .aqCreate ok => ⟨[.ctrl, .dma .aq], if ok then some (.acquire .aqRef) else none⟩
  | .cmd c r => cmdCall c r
  | .unmap m => ⟨[.buf m], some (.release (.dma m))⟩
  | .free m => ⟨[], some (.release (.buf m))⟩
  | .aqDestroy => ⟨[], some (.release .aqRef)⟩
  | .ctrlFree => ⟨[], some (.release .ctrl)⟩
  | .setFh => ⟨[], none⟩

/-! ## The registration with a record of its calls -/

/-- A session and the calls so far. -/
structure Traced where
  s : Sess
  acts : List RegAct

/-- An `IOQueuePair` with its place in the loop and its buffers. -/
structure OwnedQp where
  i : Nat
  qp : IOQueuePair
  cqBuf : Option Nat
  sqBuf : Option Nat
  prpBuf : Option Nat

/-- The commands that an admin call with result `r` has submitted. -/
def submitted (a a' : Admin) (r : Int) : List RegAct :=
  (a'.pair.cmds.drop a.pair.cmds.length).map (.cmd · r)

namespace Traced

def act (t : Traced) (a : RegAct) : Traced := { t with acts := t.acts ++ [a] }

def mapHost (c : Ctx) (t : Traced) (env : HostMapEnv) (m : RegMem) (vaddr size : Nat) :
    Except Errno NvmDma × Traced :=
  let x := t.s.mapHost c env vaddr size
  (x.1, ⟨x.2, t.acts ++ [.map m x.1.isOk]⟩)

def note (t : Traced) (a : Admin) (r : Int) : Traced :=
  ⟨t.s.note a r, t.acts ++ submitted t.s.admin a r⟩

def noteDelete (t : Traced) (a : Admin) (r : Int) : Traced :=
  ⟨t.s.noteDelete a r, t.acts ++ submitted t.s.admin a r⟩

def unmap (c : Ctx) (t : Traced) (m : RegMem) (dma : NvmDma) (mem : Option QueueMem) : Traced :=
  ⟨t.s.unmap c dma mem true, t.acts ++ [.unmap m]⟩

/-- `free`, which does nothing with a null pointer. -/
def free (t : Traced) (m : RegMem) (buf : Option Nat) : Traced :=
  if buf.isSome then t.act (.free m) else t

def cleanupSq (c : Ctx) (t : Traced) (q : OwnedQp) : Traced :=
  match q.qp.sqDma with
  | none => t
  | some dma =>
    let sq := q.qp.pair.sq.q
    let x := nvmAdminSqDelete c.dev c.mapper.ctrl.timeout t.s.admin sq q.qp.pair.cq.q
    (t.noteDelete x.2.2 x.1).unmap c (.sq q.i) dma (some (.sq (u16 sq.no)))

def cleanupCq (c : Ctx) (t : Traced) (q : OwnedQp) : Traced :=
  match q.qp.cqDma with
  | none => t
  | some dma =>
    let cq := q.qp.pair.cq.q
    let x := nvmAdminCqDelete c.dev c.mapper.ctrl.timeout t.s.admin cq
    (t.noteDelete x.2.2 x.1).unmap c (.cq q.i) dma (some (.cq (u16 cq.no)))

def cleanupPrp (c : Ctx) (t : Traced) (q : OwnedQp) : Traced :=
  match q.qp.prpDma with
  | none => t
  | some dma => t.unmap c (.prp q.i) dma none

def freeBufs (t : Traced) (q : OwnedQp) : Traced :=
  ((t.free (.sq q.i) q.sqBuf).free (.cq q.i) q.cqBuf).free (.prp q.i) q.prpBuf

/-- `cleanup_qp`. -/
def cleanupQp (c : Ctx) (t : Traced) (q : OwnedQp) : Traced :=
  (((t.cleanupSq c q).cleanupCq c q).cleanupPrp c q).freeBufs q

def registerPrp (c : Ctx) (t : Traced) (env : QpEnv) (i : Nat) (sq cq : NvmQueue)
    (sqDma cqDma : NvmDma) (cqBuf sqBuf : Nat) : Except OwnedQp OwnedQp × Traced :=
  let qp : IOQueuePair := ⟨.create sq cq 0, some sqDma, some cqDma, none⟩
  match env.prpBuf with
  | none => (.error ⟨i, qp, some cqBuf, some sqBuf, none⟩, t)
  | some buf =>
    match (t.act (.alloc (.prp i))).mapHost c env.prpMap (.prp i) buf c.mapper.ctrl.pageSize with
    | (.error _, t) => (.error ⟨i, qp, some cqBuf, some sqBuf, some buf⟩, t)
    | (.ok dma, t) =>
      (.ok ⟨i, ⟨.create sq cq dma.base, some sqDma, some cqDma, some dma⟩, some cqBuf, some sqBuf,
        some buf⟩, t)

def registerSq (c : Ctx) (t : Traced) (env : QpEnv) (i : Nat) (cq : NvmQueue) (cqDma : NvmDma)
    (cqBuf : Nat) : Except OwnedQp OwnedQp × Traced :=
  let qp : IOQueuePair := ⟨.create .zero cq 0, none, some cqDma, none⟩
  match env.sqBuf with
  | none => (.error ⟨i, qp, some cqBuf, none, none⟩, t)
  | some buf =>
    match (t.act (.alloc (.sq i))).mapHost c env.sqMap (.sq i) buf c.mapper.ctrl.pageSize with
    | (.error _, t) => (.error ⟨i, qp, some cqBuf, some buf, none⟩, t)
    | (.ok dma, t) =>
      let x := nvmAdminSqCreate c.dev c.mapper.ctrl t.s.admin cq (i + 1) dma 0
        UGDS_DEFAULT_QUEUE_DEPTH false
      let t := t.note x.2.2 x.1
      match x.2.1 with
      | none =>
        (.error ⟨i, qp, some cqBuf, some buf, none⟩, t.unmap c (.sq i) dma (some (.sq (i + 1))))
      | some sq => t.registerPrp c env i sq cq dma cqDma cqBuf buf

def registerQp (c : Ctx) (t : Traced) (env : QpEnv) (i : Nat) : Except OwnedQp OwnedQp × Traced :=
  match env.cqBuf with
  | none => (.error ⟨i, .zero, none, none, none⟩, t)
  | some buf =>
    match (t.act (.alloc (.cq i))).mapHost c env.cqMap (.cq i) buf c.mapper.ctrl.pageSize with
    | (.error _, t) => (.error ⟨i, .zero, some buf, none, none⟩, t)
    | (.ok dma, t) =>
      let x := nvmAdminCqCreate c.dev c.mapper.ctrl t.s.admin (i + 1) dma 0
        UGDS_DEFAULT_QUEUE_DEPTH false
      let t := t.note x.2.2 x.1
      match x.2.1 with
      | none =>
        (.error ⟨i, .zero, some buf, none, none⟩, t.unmap c (.cq i) dma (some (.cq (i + 1))))
      | some cq => t.registerSq c env i cq dma buf

def registerQps (c : Ctx) (env : Nat → QpEnv) :
    (n i : Nat) → Traced → List OwnedQp → Option (List OwnedQp) × Traced
  | 0, _, t, done => (some done, t)
  | n + 1, i, t, done =>
    match t.registerQp c (env i) i with
    | (.error q, t) => (none, done.foldl (cleanupQp c) (t.cleanupQp c q))
    | (.ok q, t) => registerQps c env n (i + 1) t (done ++ [q])

def identify (c : Ctx) (t : Traced) (ioaddr : BitVec 64) (cmd : NvmCmd) : Bool × Traced :=
  let x := nvmAdminIdentify c.dev c.mapper.ctrl.timeout t.s.admin ioaddr cmd
  (x.1 = 0, t.note x.2 x.1)

def requestQps (c : Ctx) (t : Traced) : Option Nat × Traced :=
  let n := UGDS_DEFAULT_NUM_QPS
  let x := nvmAdminRequestNumQueues c.dev c.mapper.ctrl.timeout t.s.admin n n
  (if x.1 = 0 then some (min (min x.2.1 x.2.2.1) n) else none, t.note x.2.2.2 x.1)

/-- `nvm_aq_destroy(hs->aq_ref)`, `nvm_dma_unmap(hs->aq_dma)`, `free(hs->aq_buf)` and
`nvm_ctrl_free(hs->ctrl)`. -/
def closeAq (c : Ctx) (t : Traced) (aqDma : NvmDma) : Traced :=
  ⟨UGDS.closeAq c t.s aqDma, t.acts ++ [.aqDestroy, .unmap .aq, .free .aq, .ctrlFree]⟩

/-- What is built, with the buffers of the queue pairs, or `none` after an error. -/
def registerQueues (c : Ctx) (r : RegCall) (aqDma : NvmDma) (t : Traced) :
    Option (Option (Built × List OwnedQp) × Traced) :=
  match aqDma.ioaddrs[2]? with
  | none => none
  | some ioaddr =>
    match t.identify c ioaddr (adminIdentifyCtrl ioaddr) with
    | (false, t) => some (none, t.closeAq c aqDma)
    | (true, t) =>
      match maxDataSize r.cap r.mdts with
      | none => none
      | some maxTransferSize =>
        match t.identify c ioaddr (adminIdentifyNs 1 ioaddr) with
        | (false, t) => some (none, t.closeAq c aqDma)
        | (true, t) =>
          match lbaDataSize r.lbads with
          | none => none
          | some blockSize =>
            match t.requestQps c with
            | (none, t) => some (none, t.closeAq c aqDma)
            | (some n, t) =>
              match registerQps c r.qps n 0 t [] with
              | (none, t) => some (none, t.closeAq c aqDma)
              | (some qps, t) =>
                some (some (⟨blockSize, maxTransferSize, n, qps.map OwnedQp.qp⟩, qps), t)

end Traced

namespace World

/-- `uGDSHandleRegister` from the reset on: what it returns, and all calls so far. -/
def registerAqTraced (dev : Device) (P : Nat) (w : World) (r : RegCall) (mapper : Mapper)
    (aqDma : NvmDma) (pair : Qp) : Option ((OpError × World) × List RegAct) :=
  let id := mapper.ctrlId
  let w := w.reset r id mapper.ctrl aqDma
  match Traced.registerQueues ⟨w.devFor dev id, mapper, P, w.pairs⟩ r aqDma
      ⟨w.enter r.device pair, [.ctrlInit, .alloc .aq, .map .aq true, .aqCreate true]⟩ with
  | none => none
  | some (none, t) =>
    some ((.INTERNAL_ERROR,
      { w.leave r.device t.s with freed := w.freed ++ [⟨id, true, t.s.admin.pair⟩] }), t.acts)
  | some (some (b, _), t) =>
    let hs : HandleState :=
      { fd := r.fd, ctrlId := id, ctrl := mapper.ctrl, aq := t.s.admin.pair, aqDma := some aqDma
        nsId := 1, blockSize := b.blockSize, maxTransferSize := b.maxTransferSize
        numQps := b.numQps, qps := b.qps, rrCounter := 0 }
    some ((.SUCCESS,
      { w.leave r.device t.s with
        handles := w.handles ++ [hs]
        defaultCtrl := if w.defaultCtrl = none then some id else w.defaultCtrl }),
      t.acts ++ [.setFh])

def registerCtrlTraced (dev : Device) (P : Nat) (w : World) (r : RegCall) (mapper : Mapper) :
    Option ((OpError × World) × List RegAct) :=
  match r.aqBuf with
  | none => some ((.INTERNAL_ERROR, w), [.ctrlInit, .ctrlFree])
  | some buf =>
    let x := nvmDmaMapHost P w.k r.aqMap.lib r.aqMap.host r.aqMap.copyIn r.aqMap.copyOut mapper buf
      (3 * mapper.ctrl.pageSize)
    let w := { w with k := x.1 }
    match x.2 with
    | .error _ =>
      some ((.INTERNAL_ERROR, w), [.ctrlInit, .alloc .aq, .map .aq false, .free .aq, .ctrlFree])
    | .ok aqDma =>
      match createAdmin mapper.ctrl r.aq aqDma with
      | none => none
      | some (.error (_, copied)) =>
        let w := if copied then w.unmap r.current aqDma false else w
        some ((.INTERNAL_ERROR, w.unmap r.current aqDma true),
          [.ctrlInit, .alloc .aq, .map .aq true, .aqCreate false, .unmap .aq, .free .aq, .ctrlFree])
      | some (.ok pair) => w.registerAqTraced dev P r mapper aqDma pair

/-- `uGDSHandleRegister` with its calls. -/
def handleRegisterTraced (dev : Device) (P : Nat) (w : World) (r : RegCall) :
    Option ((OpError × World) × List RegAct) :=
  if r.fhNull || r.descrNull then some ((.INVALID_VALUE, w), [])
  else if !w.initialized then some ((.DRIVER_NOT_INITIALIZED, w), [])
  else if !r.opaqueFd then some ((.INVALID_FILE_TYPE, w), [])
  else
    match r.openErr, nvmCtrlInit r.alloc P r.cap with
    | none, .ok ctrl =>
      let id := w.nextId
      registerCtrlTraced dev P
        { w with nextId := id + 1, ctrlDev := Function.update w.ctrlDev id r.device } r
        ⟨r.current, r.device, ctrl, id⟩
    | _, _ => some ((.INTERNAL_ERROR, w), [])

/-- The calls of `uGDSHandleRegister`. -/
def registerActs (dev : Device) (P : Nat) (w : World) (r : RegCall) : Option (List RegAct) :=
  (w.handleRegisterTraced dev P r).map Prod.snd

end World

/-! ## Without the record -/

namespace Traced

section Forget

variable {c : Ctx} {t : Traced}

theorem free_s (m : RegMem) (buf : Option Nat) : (t.free m buf).s = t.s := by
  unfold free
  split <;> rfl

theorem cleanupQp_forget (c : Ctx) (t : Traced) (q : OwnedQp) :
    (t.cleanupQp c q).s = UGDS.cleanupQp c t.s q.qp := by
  have hsq (t : Traced) : (t.cleanupSq c q).s = UGDS.cleanupSq c t.s q.qp := by
    unfold cleanupSq UGDS.cleanupSq
    cases q.qp.sqDma <;> rfl
  have hcq (t : Traced) : (t.cleanupCq c q).s = UGDS.cleanupCq c t.s q.qp := by
    unfold cleanupCq UGDS.cleanupCq
    cases q.qp.cqDma <;> rfl
  have hprp (t : Traced) : (t.cleanupPrp c q).s = UGDS.cleanupPrp c t.s q.qp := by
    unfold cleanupPrp UGDS.cleanupPrp
    cases q.qp.prpDma <;> rfl
  simp only [cleanupQp, freeBufs, free_s, UGDS.cleanupQp, hprp, hcq, hsq]

theorem cleanupQps_forget (c : Ctx) (t : Traced) (qs : List OwnedQp) :
    (qs.foldl (cleanupQp c) t).s = (qs.map OwnedQp.qp).foldl (UGDS.cleanupQp c) t.s := by
  induction qs generalizing t with
  | nil => rfl
  | cons q qs ih =>
    simp only [List.foldl_cons, List.map_cons]
    rw [ih, cleanupQp_forget]

def forgetQp (x : Except OwnedQp OwnedQp × Traced) : Except IOQueuePair IOQueuePair × Sess :=
  ((x.1.mapError OwnedQp.qp).map OwnedQp.qp, x.2.s)

theorem registerPrp_forget (env : QpEnv) (i : Nat) (sq cq : NvmQueue) (sqDma cqDma : NvmDma)
    (cqBuf sqBuf : Nat) :
    forgetQp (t.registerPrp c env i sq cq sqDma cqDma cqBuf sqBuf) =
      UGDS.registerPrp c t.s env sq cq sqDma cqDma := by
  unfold registerPrp UGDS.registerPrp
  cases env.prpBuf with
  | none => rfl
  | some buf =>
    simp only [mapHost, act]
    rcases t.s.mapHost c env.prpMap buf c.mapper.ctrl.pageSize with ⟨_ | dma, s⟩ <;> rfl

theorem registerSq_forget (env : QpEnv) (i : Nat) (cq : NvmQueue) (cqDma : NvmDma) (cqBuf : Nat) :
    forgetQp (t.registerSq c env i cq cqDma cqBuf) = UGDS.registerSq c t.s env i cq cqDma := by
  unfold registerSq UGDS.registerSq
  cases env.sqBuf with
  | none => rfl
  | some buf =>
    simp only [mapHost, act]
    rcases t.s.mapHost c env.sqMap buf c.mapper.ctrl.pageSize with ⟨_ | dma, s⟩
    · rfl
    · simp only
      generalize nvmAdminSqCreate c.dev c.mapper.ctrl s.admin cq (i + 1) dma 0
        UGDS_DEFAULT_QUEUE_DEPTH false = x
      rcases x with ⟨r, _ | sq, a⟩
      · rfl
      · exact registerPrp_forget env i sq cq dma cqDma cqBuf buf

theorem registerQp_forget (env : QpEnv) (i : Nat) :
    forgetQp (t.registerQp c env i) = UGDS.registerQp c t.s env i := by
  unfold registerQp UGDS.registerQp
  cases env.cqBuf with
  | none => rfl
  | some buf =>
    simp only [mapHost, act]
    rcases t.s.mapHost c env.cqMap buf c.mapper.ctrl.pageSize with ⟨_ | dma, s⟩
    · rfl
    · simp only
      generalize nvmAdminCqCreate c.dev c.mapper.ctrl s.admin (i + 1) dma 0
        UGDS_DEFAULT_QUEUE_DEPTH false = x
      rcases x with ⟨r, _ | cq, a⟩
      · rfl
      · exact registerSq_forget env i cq dma buf

theorem registerQps_forget (env : Nat → QpEnv) (n i : Nat) (t : Traced) (done : List OwnedQp) :
    ((registerQps c env n i t done).1.map (List.map OwnedQp.qp), (registerQps c env n i t done).2.s) =
      UGDS.registerQps c env n i t.s (done.map OwnedQp.qp) := by
  induction n generalizing i t done with
  | zero => rfl
  | succ n ih =>
    have hqp := registerQp_forget (c := c) (t := t) (env i) i
    simp only [registerQps, UGDS.registerQps, ← hqp]
    rcases t.registerQp c (env i) i with ⟨q | q, t'⟩
    · simp only [forgetQp, Except.mapError, Except.map, Option.map_none]
      rw [cleanupQps_forget, cleanupQp_forget]
    · have := ih (i + 1) t' (done ++ [q])
      rw [List.map_append] at this
      exact this

theorem registerQueues_forget (r : RegCall) (aqDma : NvmDma) (t : Traced) :
    (registerQueues c r aqDma t).map (fun x => (x.1.map Prod.fst, x.2.s)) =
      UGDS.registerQueues c r aqDma t.s := by
  unfold registerQueues UGDS.registerQueues
  have hid (t : Traced) (ioaddr : BitVec 64) (cmd : NvmCmd) :
      UGDS.identify c t.s ioaddr cmd =
        ((t.identify c ioaddr cmd).1, (t.identify c ioaddr cmd).2.s) := rfl
  have hreq (t : Traced) : UGDS.requestQps c t.s = ((t.requestQps c).1, (t.requestQps c).2.s) := rfl
  cases aqDma.ioaddrs[2]? with
  | none => rfl
  | some ioaddr =>
    simp only [hid]
    rcases t.identify c ioaddr (adminIdentifyCtrl ioaddr) with ⟨_ | _, t₁⟩
    · rfl
    cases maxDataSize r.cap r.mdts with
    | none => rfl
    | some limit =>
      simp only [hid]
      rcases t₁.identify c ioaddr (adminIdentifyNs 1 ioaddr) with ⟨_ | _, t₂⟩
      · rfl
      cases lbaDataSize r.lbads with
      | none => rfl
      | some block =>
        simp only [hreq]
        rcases t₂.requestQps c with ⟨_ | n, t₃⟩
        · rfl
        have hqps := registerQps_forget (c := c) r.qps n 0 t₃ []
        simp only [List.map_nil] at hqps
        simp only [← hqps]
        rcases registerQps c r.qps n 0 t₃ [] with ⟨_ | qps, t₄⟩ <;> rfl

end Forget

end Traced

namespace World

variable (dev : Device) (P : Nat) (w : World) (r : RegCall)

theorem registerAqTraced_forget (mapper : Mapper) (aqDma : NvmDma) (pair : Qp) :
    (w.registerAqTraced dev P r mapper aqDma pair).map Prod.fst =
      registerAq dev P w r mapper aqDma pair := by
  simp only [registerAqTraced, registerAq]
  generalize w.reset r mapper.ctrlId mapper.ctrl aqDma = w₁
  rw [← Traced.registerQueues_forget r aqDma ⟨w₁.enter r.device pair,
    [.ctrlInit, .alloc .aq, .map .aq true, .aqCreate true]⟩]
  rcases Traced.registerQueues ⟨w₁.devFor dev mapper.ctrlId, mapper, P, w₁.pairs⟩ r aqDma
    ⟨w₁.enter r.device pair, _⟩ with _ | ⟨_ | ⟨b, qs⟩, t⟩ <;> rfl

theorem registerCtrlTraced_forget (mapper : Mapper) :
    (w.registerCtrlTraced dev P r mapper).map Prod.fst = registerCtrl dev P w r mapper := by
  unfold registerCtrlTraced registerCtrl
  cases r.aqBuf with
  | none => rfl
  | some buf =>
    simp only
    rcases nvmDmaMapHost P w.k r.aqMap.lib r.aqMap.host r.aqMap.copyIn r.aqMap.copyOut mapper buf
      (3 * mapper.ctrl.pageSize) with ⟨k, _ | aqDma⟩
    · rfl
    · simp only
      rcases createAdmin mapper.ctrl r.aq aqDma with _ | _ | pair
      · rfl
      · rfl
      · exact registerAqTraced_forget dev P _ r mapper aqDma pair

theorem handleRegisterTraced_forget :
    (w.handleRegisterTraced dev P r).map Prod.fst = handleRegister dev P w r := by
  unfold handleRegisterTraced handleRegister
  split
  · rfl
  split
  · rfl
  split
  · rfl
  rcases r.openErr with _ | err
  · rcases nvmCtrlInit r.alloc P r.cap with err | ctrl
    · rfl
    · exact registerCtrlTraced_forget dev P _ r _
  · rfl

variable {dev P w r} {e : OpError} {w' : World}

/-- A registration and its calls. -/
theorem traced_of_handleRegister (h : handleRegister dev P w r = some (e, w')) :
    ∃ acts, w.handleRegisterTraced dev P r = some ((e, w'), acts) ∧
      w.registerActs dev P r = some acts := by
  rw [← handleRegisterTraced_forget] at h
  obtain ⟨⟨x, acts⟩, hx, rfl⟩ := Option.map_eq_some_iff.mp h
  exact ⟨acts, hx, by rw [registerActs, hx]; rfl⟩

end World

end UGDS
