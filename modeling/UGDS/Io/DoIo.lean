import UGDS.Nvm.Cmd
import UGDS.Nvm.QueuePair

/-!
# UGDS.Io.DoIo

`do_io` (`ugds_io.cpp`), the one function behind `uGDSRead` and `uGDSWrite`.

The pieces follow the function from top to bottom: `ioBuffer` is the registry lookup and the
on-the-fly mapping, `maxXfer` the transfer limit, `drainEnqueue` the inner loop that waits for a
free slot, `ioChunk` one turn of the transfer loop and `ioLoop` the loop. The buffer registry's
answer and `nvm_dma_map_device` are arguments of `doIo`, and so is the controller.

`none` stands for undefined behaviour (an index beyond `ioaddrs` or `qps`, a division by a zero
`num_qps`) or for a loop that does not end. The locks are not modelled: one call runs at a time on
a queue pair. `hs == nullptr` is tested where a handle is looked up.
-/

namespace UGDS

open Nvm

/-- `IOQueuePair`. The buffers behind the three mappings are the memories inside `pair`. -/
structure IOQueuePair where
  pair : Qp
  sqDma : Option NvmDma
  cqDma : Option NvmDma
  prpDma : Option NvmDma

/-- `HandleState`. `ctrlId` is the pointer `ctrl`, `ctrl` what it points to, `aq` the admin queue
pair behind `aq_ref`. -/
structure HandleState where
  fd : Nat
  ctrlId : Nat
  ctrl : NvmCtrl
  aq : Qp
  aqDma : Option NvmDma
  nsId : BitVec 32
  blockSize : Nat
  maxTransferSize : Nat
  numQps : Nat
  qps : List IOQueuePair
  rrCounter : Nat

/-- The arguments of a read or write, in the ranges of their C types. -/
structure IoArgs where
  base : Nat
  size : Nat
  fileOffset : Int
  bufOffset : Int
  opcode : BitVec 8
  base_lt : base < 2 ^ 64
  size_lt : size < 2 ^ 64
  fileOffset_lt : fileOffset < 2 ^ 63
  bufOffset_lt : bufOffset < 2 ^ 63

theorem zeroOffset_lt : (0 : Int) < 2 ^ 63 := by decide

/-- `static_cast<ssize_t>` of a `size_t`. -/
def ssize (n : Nat) : Int := if n < 2 ^ 63 then n else n - 2 ^ 64

namespace HandleState

variable (hs : HandleState)

/-- The number of extra polls after the first, `timeout * 1000000`. -/
def spins : Nat := u64 (1000000 * hs.ctrl.timeout)

/-- `max_xfer` after its default and its two clamps. -/
def maxXfer : Nat :=
  let page := hs.ctrl.pageSize
  let m := if hs.maxTransferSize = 0 then 128 * 1024 else hs.maxTransferSize
  let m := if m < page then page else m
  let prpMax := u64 ((page / 8 + 1) * page)
  if m > prpMax then prpMax else m

/-- `chunk_size` when `remaining` bytes are left. -/
def chunkSize (remaining : Nat) : Nat := min remaining hs.maxXfer / hs.blockSize * hs.blockSize

/-- `n_pages` of a chunk. -/
def chunkPages (chunk : Nat) : Nat :=
  let n := u64 (chunk + hs.ctrl.pageSize - 1) / hs.ctrl.pageSize
  if n = 0 then 1 else n

end HandleState

/-- The buffer to transfer from or to: the mapping, whether it was made for this call, and
`buf_page_start`. `reg` is the registry's entry for `bufPtr_base`. -/
def ioBuffer (hs : HandleState) (reg : Option NvmDma) (mapDevice : Nat → Nat → Except Errno NvmDma)
    (a : IoArgs) : Except Errno (NvmDma × Bool × Nat) :=
  let page := hs.ctrl.pageSize
  let off := a.bufOffset.toNat
  match reg with
  | some dma =>
    if off % page ≠ 0 then .error .EINVAL
    else if u64 (off / page + u64 (a.size + page - 1) / page) > dma.nIoaddrs then .error .EINVAL
    else .ok (dma, false, off / page)
  | none =>
    match mapDevice (u64 (a.base + off)) a.size with
    | .error _ => .error Errno.EIO
    | .ok dma => .ok (dma, true, 0)

/-- The loop that fills the PRP list: entry `i - 1` is the address of page `page + i`, for `i`
from 1 to `k`. -/
def prpFill (ioaddrs : List (BitVec 64)) (page : Nat) :
    Nat → (Nat → BitVec 64) → Option (Nat → BitVec 64)
  | 0, prp => some prp
  | k + 1, prp =>
    match prpFill ioaddrs page k prp, ioaddrs[page + (k + 1)]? with
    | some prp, some addr => some (Function.update prp k addr)
    | _, _ => none

/-- PRP1, PRP2 and the list page for a transfer of `nPages` pages from page `page` on. -/
def dataPtrs (ioaddrs : List (BitVec 64)) (page nPages : Nat) (prpAddr : BitVec 64)
    (prp : Nat → BitVec 64) : Option (BitVec 64 × BitVec 64 × (Nat → BitVec 64)) :=
  if nPages = 1 then
    match ioaddrs[page]? with
    | some a => some (a, 0#64, prp)
    | none => none
  else if nPages = 2 then
    match ioaddrs[page]?, ioaddrs[page + 1]? with
    | some a, some b => some (a, b, prp)
    | _, _ => none
  else
    match prpFill ioaddrs page (nPages - 1) prp, ioaddrs[page]? with
    | some prp, some a => some (a, prpAddr, prp)
    | _, _ => none

/-- `while ((cmd = nvm_sq_enqueue(&qp.sq)) == nullptr)`: a slot, or no slot when the transfer ends
with `-EIO`. A `nvm_sq_update` frees a slot, so `fuel = 2` is enough in every reachable state. -/
def drainEnqueue (dev : Device) (spins : Nat) :
    Nat → Nat → Qp → Option (Option Nat × Nat × Qp)
  | 0, _, _ => none
  | fuel + 1, t, qp =>
    match qp.enqueue with
    | some (slot, qp) => some (some slot, t, qp)
    | none =>
      match busyPoll dev spins t qp with
      | (none, t, qp) => some (none, t, qp)
      | (some drain, t, qp) =>
        if drain.status ≠ 0 then some (none, t, qp.retire)
        else drainEnqueue dev spins fuel t qp.retire

/-- Filling the slot and ringing the doorbell. The command identifier is computed after the
enqueue, from the descriptor it left. -/
def ioIssue (hs : HandleState) (dma : NvmDma) (opcode : BitVec 8) (chunk lba page slot : Nat)
    (qp : Qp) : Option Qp :=
  match dataPtrs dma.ioaddrs page (hs.chunkPages chunk) qp.prpAddr qp.prp with
  | none => none
  | some (prp1, prp2, prp) =>
    let cmd := buildRw (nvmDefaultCid qp.sq.q) opcode hs.nsId prp1 prp2 (BitVec.ofNat 64 lba)
      (BitVec.ofNat 16 (chunk / hs.blockSize))
    some (({ qp with prp := prp }.put slot cmd).submit)

/-- One turn of the loop, for `chunk` bytes: `true` when a completion with status 0 was taken,
`false` when the transfer ends with `-EIO`. -/
def ioChunk (dev : Device) (hs : HandleState) (dma : NvmDma) (opcode : BitVec 8)
    (chunk lba page t : Nat) (qp : Qp) : Option (Bool × Nat × Qp) :=
  match drainEnqueue dev hs.spins 2 t qp with
  | none => none
  | some (none, t, qp) => some (false, t, qp)
  | some (some slot, t, qp) =>
    match ioIssue hs dma opcode chunk lba page slot qp with
    | none => none
    | some qp =>
      match busyPoll dev hs.spins t qp with
      | (none, t, qp) => some (false, t, qp)
      | (some cpl, t, qp) => some (decide (cpl.status = 0), t, qp.retire)

section

variable {dev : Device} {hs : HandleState} {dma : NvmDma} {opcode : BitVec 8}
  {chunk lba page t t₁ t' slot : Nat} {qp q₁ q₂ q : Qp}

theorem ioChunk_timeout (h₁ : drainEnqueue dev hs.spins 2 t qp = some (some slot, t₁, q₁))
    (h₂ : ioIssue hs dma opcode chunk lba page slot q₁ = some q₂)
    (h₃ : busyPoll dev hs.spins t₁ q₂ = (none, t', q)) :
    ioChunk dev hs dma opcode chunk lba page t qp = some (false, t', q) := by
  simp only [ioChunk, h₁, h₂, h₃]

theorem ioChunk_completed {cpl : NvmCpl}
    (h₁ : drainEnqueue dev hs.spins 2 t qp = some (some slot, t₁, q₁))
    (h₂ : ioIssue hs dma opcode chunk lba page slot q₁ = some q₂)
    (h₃ : busyPoll dev hs.spins t₁ q₂ = (some cpl, t', q)) :
    ioChunk dev hs dma opcode chunk lba page t qp =
      some (decide (cpl.status = 0), t', q.retire) := by
  simp only [ioChunk, h₁, h₂, h₃]

end

/-- `while (bytes_done < size)`. A turn transfers at least one block, so `size / block_size` turns
are enough. -/
def ioLoop (dev : Device) (hs : HandleState) (dma : NvmDma) (opcode : BitVec 8) (size : Nat)
    (fuel bytesDone lba page t : Nat) (qp : Qp) : Option (Int × Nat × Qp) :=
  if size ≤ bytesDone then some (ssize bytesDone, t, qp)
  else
    match fuel with
    | 0 => none
    | fuel + 1 =>
      let chunk := hs.chunkSize (size - bytesDone)
      if chunk = 0 then some (-Errno.EINVAL.code, t, qp)
      else
        match ioChunk dev hs dma opcode chunk lba page t qp with
        | none => none
        | some (false, t, qp) => some (-Errno.code Errno.EIO, t, qp)
        | some (true, t, qp) =>
          ioLoop dev hs dma opcode size fuel (bytesDone + chunk) (lba + chunk / hs.blockSize)
            (page + hs.chunkPages chunk) t qp

/-- The outcome of a call: the returned value, the number of the next poll, the handle, the
mapping used (`none` when the call was refused before it had one) and the mapping handed to
`nvm_dma_unmap` at the end. -/
structure IoResult where
  ret : Int
  t : Nat
  hs : HandleState
  used : Option NvmDma
  unmapped : Option NvmDma

/-- The queue pair of the next call, `rr_counter % num_qps`. -/
def HandleState.qpIdx (hs : HandleState) : Nat := u16 (hs.rrCounter % hs.numQps)

/-- Whatever the counter is, there is a queue pair for the next call. -/
theorem HandleState.exists_next {hs : HandleState} (hpos : 0 < hs.numQps)
    (hlt : hs.numQps < 2 ^ 16) (hlen : hs.numQps = hs.qps.length) :
    ∃ qp ∈ hs.qps, hs.qps[hs.qpIdx]? = some qp := by
  have hmod : hs.rrCounter % hs.numQps < hs.numQps := Nat.mod_lt _ hpos
  have hidx : hs.qpIdx < hs.qps.length := by
    rw [HandleState.qpIdx, u16, Nat.mod_eq_of_lt (hmod.trans hlt), ← hlen]
    exact hmod
  exact ⟨_, List.getElem_mem hidx, List.getElem?_eq_getElem hidx⟩

/-- `do_io`. -/
def doIo (dev : Device) (t : Nat) (hs : HandleState) (reg : Option NvmDma)
    (mapDevice : Nat → Nat → Except Errno NvmDma) (a : IoArgs) : Option IoResult :=
  let refuse (e : Errno) : Option IoResult := some ⟨-e.code, t, hs, none, none⟩
  if a.base = 0 ∨ a.size = 0 then refuse .EINVAL
  else if a.fileOffset < 0 ∨ a.bufOffset < 0 then refuse .EINVAL
  else if hs.blockSize = 0 then refuse .EINVAL
  else if a.fileOffset.toNat % hs.blockSize ≠ 0 ∨ a.size % hs.blockSize ≠ 0 then refuse .EINVAL
  else if hs.ctrl.pageSize = 0 then refuse .EINVAL
  else
    match ioBuffer hs reg mapDevice a with
    | .error e => refuse e
    | .ok (dma, onTheFly, start) =>
      if hs.numQps = 0 then none
      else
        match hs.qps[hs.qpIdx]? with
        | none => none
        | some qp =>
          match ioLoop dev hs dma a.opcode a.size (a.size / hs.blockSize) 0
              (a.fileOffset.toNat / hs.blockSize) start t qp.pair with
          | none => none
          | some (ret, t, pair) =>
            let hs' := { hs with
              rrCounter := u32 (hs.rrCounter + 1)
              qps := hs.qps.set hs.qpIdx { qp with pair := pair } }
            some ⟨ret, t, hs', some dma, if onTheFly then some dma else none⟩

/-- What passing the checks at the top means. -/
structure IoArgs.Valid (a : IoArgs) (hs : HandleState) : Prop where
  base_pos : a.base ≠ 0
  size_pos : a.size ≠ 0
  file_nonneg : 0 ≤ a.fileOffset
  buf_nonneg : 0 ≤ a.bufOffset
  block_pos : hs.blockSize ≠ 0
  file_block : a.fileOffset.toNat % hs.blockSize = 0
  size_block : a.size % hs.blockSize = 0
  page_pos : hs.ctrl.pageSize ≠ 0

instance (a : IoArgs) (hs : HandleState) : Decidable (a.Valid hs) :=
  decidable_of_iff (a.base ≠ 0 ∧ a.size ≠ 0 ∧ 0 ≤ a.fileOffset ∧ 0 ≤ a.bufOffset ∧
      hs.blockSize ≠ 0 ∧ a.fileOffset.toNat % hs.blockSize = 0 ∧ a.size % hs.blockSize = 0 ∧
      hs.ctrl.pageSize ≠ 0)
    ⟨fun ⟨h1, h2, h3, h4, h5, h6, h7, h8⟩ => ⟨h1, h2, h3, h4, h5, h6, h7, h8⟩,
      fun h => ⟨h.base_pos, h.size_pos, h.file_nonneg, h.buf_nonneg, h.block_pos, h.file_block,
        h.size_block, h.page_pos⟩⟩

section

variable {dev : Device} {t : Nat} {hs : HandleState} {reg : Option NvmDma}
  {mapDevice : Nat → Nat → Except Errno NvmDma} {a : IoArgs}

/-- The checks as the source writes them. -/
theorem IoArgs.Valid.checks (h : a.Valid hs) :
    ¬(a.base = 0 ∨ a.size = 0) ∧ ¬(a.fileOffset < 0 ∨ a.bufOffset < 0) ∧
      ¬(a.fileOffset.toNat % hs.blockSize ≠ 0 ∨ a.size % hs.blockSize ≠ 0) :=
  ⟨not_or.mpr ⟨h.base_pos, h.size_pos⟩,
    not_or.mpr ⟨Int.not_lt.mpr h.file_nonneg, Int.not_lt.mpr h.buf_nonneg⟩,
    not_or.mpr ⟨not_not.mpr h.file_block, not_not.mpr h.size_block⟩⟩

theorem doIo_not_valid (h : ¬a.Valid hs) :
    doIo dev t hs reg mapDevice a = some ⟨-Errno.EINVAL.code, t, hs, none, none⟩ := by
  unfold doIo
  simp only
  split
  · rfl
  split
  · rfl
  split
  · rfl
  split
  · rfl
  split
  · rfl
  · exact absurd (by constructor <;> omega) h

theorem doIo_error (h : a.Valid hs) {e : Errno} (hb : ioBuffer hs reg mapDevice a = .error e) :
    doIo dev t hs reg mapDevice a = some ⟨-e.code, t, hs, none, none⟩ := by
  obtain ⟨h1, h2, h3⟩ := h.checks
  simp only [doIo, if_neg h1, if_neg h2, if_neg h.block_pos, if_neg h3, if_neg h.page_pos, hb]

theorem doIo_valid (dev : Device) (t : Nat) (h : a.Valid hs) {dma : NvmDma} {fly : Bool} {start : Nat}
    (hb : ioBuffer hs reg mapDevice a = .ok (dma, fly, start)) (hn : hs.numQps ≠ 0)
    {qp : IOQueuePair} (hq : hs.qps[hs.qpIdx]? = some qp) :
    doIo dev t hs reg mapDevice a =
      (ioLoop dev hs dma a.opcode a.size (a.size / hs.blockSize) 0
        (a.fileOffset.toNat / hs.blockSize) start t qp.pair).map fun x =>
          ⟨x.1, x.2.1, { hs with
            rrCounter := u32 (hs.rrCounter + 1)
            qps := hs.qps.set hs.qpIdx { qp with pair := x.2.2 } }, some dma,
            if fly then some dma else none⟩ := by
  obtain ⟨h1, h2, h3⟩ := h.checks
  simp only [doIo, if_neg h1, if_neg h2, if_neg h.block_pos, if_neg h3, if_neg h.page_pos, hb,
    if_neg hn, hq]
  split <;> simp_all

/-- A call is refused with a negative value and no effect, or it passes the checks and runs the
loop on the next queue pair. -/
theorem doIo_cases {r : IoResult} (h : doIo dev t hs reg mapDevice a = some r) :
    (r.ret < 0 ∧ r.t = t ∧ r.hs = hs ∧ r.used = none ∧ r.unmapped = none) ∨
      ∃ dma fly start qp ret t' pair, a.Valid hs ∧
        ioBuffer hs reg mapDevice a = .ok (dma, fly, start) ∧ hs.qps[hs.qpIdx]? = some qp ∧
        ioLoop dev hs dma a.opcode a.size (a.size / hs.blockSize) 0
          (a.fileOffset.toNat / hs.blockSize) start t qp.pair = some (ret, t', pair) ∧
        r = ⟨ret, t', { hs with
          rrCounter := u32 (hs.rrCounter + 1)
          qps := hs.qps.set hs.qpIdx { qp with pair := pair } }, some dma,
          if fly then some dma else none⟩ := by
  have hneg (e : Errno) : -e.code < 0 := by have := e.code_pos; omega
  simp only [doIo] at h
  split at h
  · cases h; exact .inl ⟨hneg _, rfl, rfl, rfl, rfl⟩
  split at h
  · cases h; exact .inl ⟨hneg _, rfl, rfl, rfl, rfl⟩
  split at h
  · cases h; exact .inl ⟨hneg _, rfl, rfl, rfl, rfl⟩
  split at h
  · cases h; exact .inl ⟨hneg _, rfl, rfl, rfl, rfl⟩
  split at h
  · cases h; exact .inl ⟨hneg _, rfl, rfl, rfl, rfl⟩
  rename_i h1 h2 h3 h4 h5
  have hv : a.Valid hs := by constructor <;> omega
  split at h
  · cases h; exact .inl ⟨hneg _, rfl, rfl, rfl, rfl⟩
  rename_i dma fly start hb
  split at h
  · cases h
  split at h
  · cases h
  rename_i qp hq
  split at h
  · cases h
  rename_i ret t' pair hl
  cases h
  exact .inr ⟨dma, fly, start, qp, ret, t', pair, hv, hb, hq, hl, rfl⟩

end

end UGDS
