import UGDS.Lib.Ring
import UGDS.Nvm.Types

/-!
# UGDS.Nvm.Queue

The queue functions of `nvm_queue.h` and `nvm_queue_clear` (`queue.cpp`), and the two rings they
work on together with the controller's half of each.

A queue slot is named by its index: slot `k` is the address `vaddr + es * k` that the source
returns. A doorbell write is returned as the value written. `SqRing` and `CqRing` put the host's
descriptor, the queue memory and the controller's cursor side by side; their operations are the
source's functions with the doorbell write delivered to the controller, and the controller's own
moves (`fetch`, `post`) as the NVMe protocol prescribes them.

Cache flushes and memory fences have no effect here: the model is sequentially consistent.
-/

namespace UGDS
namespace Nvm

open Lib

/-- `SQ_DBL`: offset of a submission queue's tail doorbell in BAR0. The macro computes it in `int`: this
is its value as long as the product does not overflow. `UGDS.Nvm.Doorbell` has the computation and
says when that is. -/
def sqDbl (no dstrd : Nat) : Nat := 0x1000 + (2 * no) * (4 <<< dstrd)

/-- `CQ_DBL`: offset of a completion queue's head doorbell in BAR0, likewise. -/
def cqDbl (no dstrd : Nat) : Nat := 0x1000 + (2 * no + 1) * (4 <<< dstrd)

/-- `nvm_queue_clear`. -/
def nvmQueueClear (ctrl : NvmCtrl) (cq : Bool) (no qs : Nat) (isLocal : Bool) (vaddr : Nat)
    (ioaddr : BitVec 64) : Except Errno NvmQueue :=
  if qs < 2 ∨ qs > 0x10000 ∨ qs > ctrl.maxQs then .error .EINVAL
  else .ok
    { no := no
      es := if cq then 16 else 64
      qs := qs
      head := 0
      tail := 0
      last := 0
      phase := true
      isLocal := isLocal
      db := some (if cq then cqDbl no ctrl.dstrd else sqDbl no ctrl.dstrd)
      vaddr := vaddr
      ioaddr := ioaddr }

/-- The sizes that are accepted, and the descriptor. -/
theorem nvmQueueClear_ok {ctrl : NvmCtrl} {cq loc : Bool} {no qs vaddr : Nat} {ioaddr : BitVec 64}
    {q : NvmQueue} (h : nvmQueueClear ctrl cq no qs loc vaddr ioaddr = .ok q) :
    (2 ≤ qs ∧ qs ≤ 0x10000 ∧ qs ≤ ctrl.maxQs) ∧
      q = ⟨no, if cq then 16 else 64, qs, 0, 0, 0, true, loc,
        some (if cq then cqDbl no ctrl.dstrd else sqDbl no ctrl.dstrd), vaddr, ioaddr⟩ := by
  unfold nvmQueueClear at h
  split at h
  · cases h
  · rename_i hqs
    cases h
    exact ⟨by omega, rfl⟩

/-- `nvm_sq_enqueue`: the slot taken and the updated descriptor, or `none` when the queue is
full. -/
def nvmSqEnqueue (sq : NvmQueue) : Option (Nat × NvmQueue) :=
  if u16 (u32 (sq.tail + (2 ^ 32 - sq.head))) % sq.qs = sq.qs - 1 then none
  else if u32 (sq.tail + 1) = sq.qs then some (sq.tail, { sq with phase := !sq.phase, tail := 0 })
  else some (sq.tail, { sq with tail := u32 (sq.tail + 1) })

/-- `NVM_DEFAULT_CID`. -/
def nvmDefaultCid (sq : NvmQueue) : BitVec 16 :=
  BitVec.ofNat 16 (sq.tail + (if sq.phase then 0 else 1) * sq.qs)

/-- `nvm_cq_poll`: the head slot, if its phase tag is the expected one. -/
def nvmCqPoll (cq : NvmQueue) (mem : Nat → NvmCpl) : Option Nat :=
  if (mem cq.head).phaseTag ≠ cq.phase then none else some cq.head

/-- `nvm_cq_dequeue`. -/
def nvmCqDequeue (cq : NvmQueue) (mem : Nat → NvmCpl) : Option Nat × NvmQueue :=
  match nvmCqPoll cq mem with
  | none => (none, cq)
  | some k =>
    if u32 (cq.head + 1) = cq.qs then (some k, { cq with head := 0, phase := !cq.phase })
    else (some k, { cq with head := u32 (cq.head + 1) })

/-- `nvm_sq_submit`: the descriptor and the value written to the tail doorbell, if any. -/
def nvmSqSubmit (sq : NvmQueue) : NvmQueue × Option Nat :=
  if sq.last ≠ sq.tail ∧ sq.db ≠ none then ({ sq with last := sq.tail }, some sq.tail)
  else (sq, none)

/-- `nvm_sq_update`. -/
def nvmSqUpdate (sq : NvmQueue) : NvmQueue :=
  if sq.db = none then sq
  else if u32 (sq.head + 1) = sq.qs then { sq with head := 0 }
  else { sq with head := u32 (sq.head + 1) }

/-- `nvm_cq_update`: the descriptor and the value written to the head doorbell, if any. -/
def nvmCqUpdate (cq : NvmQueue) : NvmQueue × Option Nat :=
  if cq.last ≠ cq.head ∧ cq.db ≠ none then
    ({ cq with tail := cq.head, last := cq.head }, some cq.head)
  else (cq, none)

/-- A queue's number and address. -/
def NvmQueue.ident (q : NvmQueue) : Nat × BitVec 64 := (q.no, q.ioaddr)

theorem u32_succ_ring {qs i : Nat} (hq : qs ≤ 65536) (hi : i < qs) :
    (if u32 (i + 1) = qs then 0 else u32 (i + 1)) = ringNext qs i := by
  rw [u32_of_lt (by omega), ringNext]

/-! ## The completion ring -/

/-- A completion queue: the host's descriptor, the queue memory, the head doorbell register and
the controller's tail and phase. -/
structure CqRing where
  q : NvmQueue
  mem : Nat → NvmCpl
  db : Nat
  devTail : Nat
  devPhase : Bool

namespace CqRing

/-- A queue as it is after creation: zeroed memory, everything at slot 0, phase 1. -/
def create (q : NvmQueue) : CqRing := ⟨q, fun _ => .zero, 0, 0, true⟩

/-- Full for the controller: one slot is left free so that a full ring differs from an empty
one. -/
def full (r : CqRing) : Bool := ringNext r.q.qs r.devTail = r.db

/-- The entry the controller stores for `e`. -/
def entry (r : CqRing) (e : NvmCpl) : NvmCpl := e.withPhase r.devPhase

/-- The controller writes a completion at its tail, with its phase tag. -/
def post (r : CqRing) (e : NvmCpl) : CqRing :=
  { r with
    mem := Function.update r.mem r.devTail (r.entry e)
    devTail := ringNext r.q.qs r.devTail
    devPhase := if r.devTail + 1 = r.q.qs then !r.devPhase else r.devPhase }

def dequeue (r : CqRing) : Option Nat × CqRing :=
  ((nvmCqDequeue r.q r.mem).1, { r with q := (nvmCqDequeue r.q r.mem).2 })

def update (r : CqRing) : CqRing :=
  { r with q := (nvmCqUpdate r.q).1, db := (nvmCqUpdate r.q).2.getD r.db }

theorem dequeue_ident (r : CqRing) : r.dequeue.2.q.ident = r.q.ident := by
  simp only [dequeue, nvmCqDequeue]
  split
  · rfl
  · split <;> rfl

theorem update_ident (r : CqRing) : r.update.q.ident = r.q.ident := by
  simp only [update, nvmCqUpdate]
  split <;> rfl

end CqRing

/-! ## The submission ring -/

/-- A submission queue: the host's descriptor, the queue memory, the tail doorbell register and
the controller's fetch cursor. -/
structure SqRing where
  q : NvmQueue
  mem : Nat → NvmCmd
  db : Nat
  devHead : Nat

namespace SqRing

def create (q : NvmQueue) : SqRing := ⟨q, fun _ => .zero, 0, 0⟩

/-- Take a slot; `write` fills it. -/
def enqueue (r : SqRing) : Option (Nat × SqRing) :=
  (nvmSqEnqueue r.q).map fun x => (x.1, { r with q := x.2 })

def write (r : SqRing) (slot : Nat) (cmd : NvmCmd) : SqRing :=
  { r with mem := Function.update r.mem slot cmd }

def submit (r : SqRing) : SqRing :=
  { r with q := (nvmSqSubmit r.q).1, db := (nvmSqSubmit r.q).2.getD r.db }

def update (r : SqRing) : SqRing := { r with q := nvmSqUpdate r.q }

/-- The controller fetches the next command, if there is one before its tail doorbell. -/
def fetch (r : SqRing) : Option (NvmCmd × SqRing) :=
  if r.devHead = r.db then none
  else some (r.mem r.devHead, { r with devHead := ringNext r.q.qs r.devHead })

theorem fetch_q {r r' : SqRing} {cmd : NvmCmd} (h : r.fetch = some (cmd, r')) : r'.q = r.q := by
  unfold fetch at h
  split at h
  · cases h
  · cases h
    rfl

theorem enqueue_qs {r r' : SqRing} {slot : Nat} (h : r.enqueue = some (slot, r')) :
    r'.q.qs = r.q.qs := by
  simp only [enqueue, nvmSqEnqueue] at h
  split at h
  · cases h
  · split at h <;> cases h <;> rfl

theorem enqueue_ident {r r' : SqRing} {slot : Nat} (h : r.enqueue = some (slot, r')) :
    r'.q.ident = r.q.ident := by
  simp only [enqueue, nvmSqEnqueue] at h
  split at h
  · cases h
  · split at h <;> cases h <;> rfl

theorem write_q (r : SqRing) (slot : Nat) (cmd : NvmCmd) : (r.write slot cmd).q = r.q := rfl

theorem submit_ident (r : SqRing) : r.submit.q.ident = r.q.ident := by
  simp only [submit, nvmSqSubmit]
  split <;> rfl

theorem update_ident (r : SqRing) : r.update.q.ident = r.q.ident := by
  simp only [update, nvmSqUpdate]
  split
  · rfl
  · split <;> rfl

@[simp] theorem submit_qs (r : SqRing) : r.submit.q.qs = r.q.qs := by
  simp only [submit, nvmSqSubmit]
  split <;> rfl

@[simp] theorem update_qs (r : SqRing) : r.update.q.qs = r.q.qs := by
  simp only [update, nvmSqUpdate]
  split
  · rfl
  · split <;> rfl

end SqRing

end Nvm
end UGDS
