import UGDS.Api.Addresses
import UGDS.Io.Bounds

/-!
# UGDS.Api.Bounds

Whether a transfer stays inside its buffer: inside the arrays of the DMA handle, and inside the GPU
memory that was registered.

`do_io` compares a number of pages, computed modulo `2^64`, with the pages of the DMA handle, and
the DMA handle has whole pages of 64 KiB.

* `io_indices_in_range`: the indices are in range exactly if the pages are without wrapping around.
* `check_iff`: what the comparison means in bytes.
* `World.Sized`: how large the entries of `buf_registry` are.
* `io_inside_registered`: when a transfer that is not refused stays inside the registered range.
-/

namespace UGDS

open Nvm Lib Drv

/-! ## Indices -/

/-- The limit from Identify data is a power of two or wraps around to 0. -/
theorem maxDataSize_pow {cap : BitVec 64} {mdts n : Nat} (h : maxDataSize cap mdts = some n) :
    n = 0 ∨ ∃ m, n = 2 ^ m := by
  simp only [maxDataSize] at h
  split at h
  · cases h
    rw [← Nat.pow_add, u64]
    generalize mdts + (12 + capMpsMin cap) = m
    rcases Nat.lt_or_ge m 64 with hm | hm
    · exact .inr ⟨m, Nat.mod_eq_of_lt (Nat.pow_lt_pow_right (by decide) hm)⟩
    · exact .inl (Nat.mod_eq_zero_of_dvd (Nat.pow_dvd_pow 2 hm))
  · cases h

/-- A call on a registered buffer that has passed its checks, on a handle whose pages and blocks are
powers of two and whose transfer limit is the one that `nvm_admin_ctrl_info` computes. With any
controller and any state of the queue pair, all turns use indices in range exactly if a block is
larger than `max_xfer`, so that there is no turn, or the comparison with `n_ioaddrs` also holds when
it is computed without wrapping around. -/
theorem io_indices_in_range {hs : HandleState} {j b : Nat} (hj : j < 64)
    (hpage : hs.ctrl.pageSize = 2 ^ j) (hblock : hs.blockSize = 2 ^ b) {cap : BitVec 64} {mdts : Nat}
    (hlimit : maxDataSize cap mdts = some hs.maxTransferSize) {dma : NvmDma}
    {mapDevice : Nat → Nat → Except Errno NvmDma} {a : IoArgs} (hv : a.Valid hs) {used : NvmDma}
    {fly : Bool} {start : Nat} (hbuf : ioBuffer hs (some dma) mapDevice a = .ok (used, fly, start)) :
    (∀ (dev : Device) (t : Nat) (qp : Qp),
        ∀ r ∈ ioTurns dev hs used a.opcode a.size (a.size / hs.blockSize) 0
            (a.fileOffset.toNat / hs.blockSize) start t qp, r.InRange hs used) ↔
      hs.maxXfer < hs.blockSize ∨
        a.bufOffset.toNat / 2 ^ j + (a.size + 2 ^ j - 1) / 2 ^ j ≤ dma.nIoaddrs := by
  obtain ⟨hx, -, -⟩ := ioBuffer_registered hbuf
  rw [hpage] at hx
  cases hx
  by_cases hfits : hs.blockSize ≤ hs.maxXfer
  · have g := paged_of_pow ⟨hj, hpage, hblock, maxDataSize_pow hlimit⟩ hfits
    rw [g.turns_in_range_iff dma a.opcode _ _ (Nat.pos_of_ne_zero hv.size_pos)
      (Nat.dvd_of_mod_eq_zero hv.size_block), hpage]
    exact (or_iff_right (Nat.not_lt.mpr hfits)).symm
  · have hlt : hs.maxXfer < hs.blockSize := Nat.not_le.mp hfits
    refine ⟨fun _ => .inl hlt, fun _ dev t qp r hr => ?_⟩
    obtain ⟨hne, -, hle⟩ := ioReqs_chunk_le ((ioTurns_initial ..).subset hr)
    rw [Nat.sub_zero, chunkSize_large hlt] at hle
    exact absurd (Nat.le_zero.mp hle) hne

/-- The sample handle with a limit of 128 KiB. -/
def limitedHandle : HandleState := { sampleHandle with maxTransferSize := 2 ^ 17 }

/-- Three pages from page 1 on, of a buffer of four. -/
theorem io_indices_in_range_three_pages :
    threePageCall.args.Valid limitedHandle ∧
      ∀ (dev : Device) (t : Nat) (qp : Qp),
        ∀ r ∈ ioTurns dev limitedHandle fourPages NVM_IO_WRITE 12288 24 0 2 1 t qp,
          r.InRange limitedHandle fourPages := by
  have hbuf : ioBuffer limitedHandle (some fourPages) threePageCall.mapDevice threePageCall.args =
      .ok (fourPages, false, 1) := rfl
  have hlimit : maxDataSize 0 5 = some limitedHandle.maxTransferSize := rfl
  have hv : threePageCall.args.Valid limitedHandle := by constructor <;> decide
  exact ⟨hv, (@io_indices_in_range limitedHandle 12 9 (by decide) rfl rfl 0 5 hlimit fourPages _ _ hv
    fourPages false 1 hbuf).mpr (.inr (by decide))⟩

theorem hugeSize_lt : 2 ^ 64 - 512 < 2 ^ 64 := by decide

/-- A read of `2^64 - 512` bytes. -/
def IoArgs.huge : IoArgs :=
  ⟨0x200000, 2 ^ 64 - 512, 0, 0, NVM_IO_READ, sampleBase_lt, hugeSize_lt, zeroOffset_lt,
    zeroOffset_lt⟩

/-- A buffer of one page. -/
def onePage : NvmDma := ⟨0, true, false, 4096, [0x9000#64], 0⟩

/-- `size + page_size - 1` wraps around to 3583, so the call needs no page of a buffer that has one,
and the first chunk is 32 pages. -/
theorem io_index_out_of_range :
    ¬ ∀ (hs : HandleState) (j b : Nat), j < 64 → hs.ctrl.pageSize = 2 ^ j → hs.blockSize = 2 ^ b →
      ∀ (cap : BitVec 64) (mdts : Nat), maxDataSize cap mdts = some hs.maxTransferSize →
      ∀ (dma : NvmDma) (mapDevice : Nat → Nat → Except Errno NvmDma) (a : IoArgs), a.Valid hs →
      ∀ (used : NvmDma) (fly : Bool) (start : Nat),
        ioBuffer hs (some dma) mapDevice a = .ok (used, fly, start) →
      ∀ (dev : Device) (t : Nat) (qp : Qp),
        ∀ r ∈ ioTurns dev hs used a.opcode a.size (a.size / hs.blockSize) 0
            (a.fileOffset.toNat / hs.blockSize) start t qp, r.InRange hs used := by
  intro h
  have hbuf : ioBuffer limitedHandle (some onePage) (fun _ _ => .error .ENOMEM) .huge =
      .ok (onePage, false, 0) := rfl
  have hlimit : maxDataSize 0 5 = some limitedHandle.maxTransferSize := rfl
  have hv : IoArgs.huge.Valid limitedHandle := by constructor <;> decide
  have hturns := h limitedHandle 12 9 (by decide) rfl rfl 0 5 hlimit onePage _ .huge hv onePage false
    0 hbuf .prompt 0 sampleQp
  have hchunk : limitedHandle.chunkSize (2 ^ 64 - 512 - 0) = 2 ^ 17 := by decide
  obtain ⟨rest, he, -⟩ := @ioTurns_cons .prompt limitedHandle onePage NVM_IO_READ (2 ^ 64 - 512)
    sampleQp 0 sampleQp_idle (by decide) (by rw [hchunk]; decide) (2 ^ 55 - 2) 0 0 0
  have hfirst := hturns ⟨2 ^ 17, 0, 0⟩ (by
    rw [hchunk] at he
    show _ ∈ ioTurns .prompt limitedHandle onePage NVM_IO_READ (2 ^ 64 - 512) (2 ^ 55 - 2 + 1) 0 0 0 0
      sampleQp
    rw [he]
    exact List.mem_cons_self)
  have := (ioaddrIndices_lt_iff (by decide) _).mp hfirst.ioaddrs
  exact absurd this (by decide)

/-! ## The registered range -/

/-- The bytes of the pages of 64 KiB that `length` bytes are rounded up to. -/
def gpuRound (length : Nat) : Nat := (length + 65535) / 65536 * 65536

/-- The turn transfers to or from GPU memory in `[base, base + length)` only. The DMA handle of a
buffer begins where the page of 64 KiB begins that its pointer is in. -/
def Req.Inside (page base length : Nat) (r : Req) : Prop :=
  base ≤ base / GPU_PAGE_SIZE * GPU_PAGE_SIZE + r.page * page ∧
    base / GPU_PAGE_SIZE * GPU_PAGE_SIZE + r.page * page + r.chunk ≤ base + length

/-- What keeps a transfer that passes the other checks inside its range: its end is not between
`length` and the rounded length, `size + page_size - 1` does not wrap around, and it does not begin
below the pointer. Where the end is beyond the rounded length, the transfer is refused. -/
def StaysInside (page length : Nat) (a : IoArgs) : Prop :=
  if a.size + page ≤ 2 ^ 64 then
    gpuRound length < a.bufOffset.toNat + a.size ∨
      a.bufOffset.toNat + a.size ≤ length ∧ a.base % GPU_PAGE_SIZE ≤ a.bufOffset.toNat
  else gpuRound length < a.bufOffset.toNat

theorem le_gpuRound (length : Nat) : length ≤ gpuRound length := by
  unfold gpuRound
  omega

/-- The comparison with `n_ioaddrs`, in bytes. -/
theorem check_iff {page off size n : Nat} (hp : 2 ≤ page) (hp' : page ≤ 2 ^ 64) (hoff : off % page = 0)
    (hofflt : off < 2 ^ 63) (hsize : size < 2 ^ 64) :
    u64 (off / page + u64 (size + page - 1) / page) ≤ n ↔
      if size + page ≤ 2 ^ 64 then off + size ≤ n * page else off ≤ n * page := by
  obtain ⟨q, rfl⟩ := Nat.dvd_of_mod_eq_zero hoff
  have hq : q < 2 ^ 62 := by
    have : 2 * q ≤ page * q := Nat.mul_le_mul_right q hp
    omega
  have hp0 : 0 < page := by omega
  rw [Nat.mul_div_cancel_left q hp0]
  split
  · rename_i hnw
    rw [u64_of_lt (by omega : size + page - 1 < 2 ^ 64)]
    have hc : (size + page - 1) / page ≤ (2 ^ 64 - 1) / 2 :=
      (Nat.div_le_div_right (by omega)).trans (Nat.div_le_div_left hp (by decide))
    rw [u64_of_lt (by omega)]
    rcases Nat.lt_or_ge n q with hlt | hge
    · have hlt' : n * page < page * q := by
        rw [Nat.mul_comm]
        exact Nat.mul_lt_mul_of_pos_left hlt hp0
      refine iff_of_false (fun h => ?_) (by omega)
      exact absurd ((Nat.le_add_right _ _).trans h) (Nat.not_le.mpr hlt)
    · obtain ⟨k, rfl⟩ := Nat.exists_eq_add_of_le hge
      rw [Nat.add_le_add_iff_left, Nat.div_le_iff_le_mul_add_pred hp0, Nat.add_mul, Nat.mul_comm q,
        Nat.mul_comm k]
      omega
  · rename_i hw
    have hz : u64 (size + page - 1) / page = 0 := by
      rw [u64, Nat.mod_eq_sub_mod (by omega), Nat.mod_eq_of_lt (by omega)]
      exact Nat.div_eq_of_lt (by omega)
    rw [hz, Nat.add_zero, u64_of_lt (by omega), Nat.mul_comm]
    exact (Nat.mul_le_mul_right_iff hp0).symm

/-- The call is refused with `-EINVAL`. -/
def Refused (x : Option IoResult) : Prop := ∃ r, x = some r ∧ r.ret = -Errno.EINVAL.code

theorem not_refused_of_ret {x : Option IoResult} {r : IoResult} (h : x = some r)
    (hne : r.ret ≠ -Errno.EINVAL.code) : ¬Refused x := by
  rintro ⟨r', hr', hret⟩
  cases h.symm.trans hr'
  exact hne hret

section Call

variable {dev : Device} {t : Nat} {hs : HandleState} {dma : NvmDma}
  {mapDevice : Nat → Nat → Except Errno NvmDma} {a : IoArgs}

/-- There is at least one block. -/
theorem IoArgs.Valid.turns (hv : a.Valid hs) : ∃ fuel, a.size / hs.blockSize = fuel + 1 :=
  Nat.exists_eq_add_of_le' (Nat.div_pos
    (Nat.le_of_dvd (Nat.pos_of_ne_zero hv.size_pos) (Nat.dvd_of_mod_eq_zero hv.size_block))
    (Nat.pos_of_ne_zero hv.block_pos))

/-- Blocks that are larger than the limit are refused by the loop. -/
theorem refused_of_large (hv : a.Valid hs) {x : NvmDma × Bool × Nat}
    (hb : ioBuffer hs (some dma) mapDevice a = .ok x) (hn : hs.numQps ≠ 0) {q : IOQueuePair}
    (hq : hs.qps[hs.qpIdx]? = some q) (hlarge : hs.maxXfer < hs.blockSize) :
    Refused (doIo dev t hs (some dma) mapDevice a) := by
  obtain ⟨used, fly, start⟩ := x
  obtain ⟨fuel, hfuel⟩ := hv.turns
  have hl : ioLoop dev hs used a.opcode a.size (a.size / hs.blockSize) 0
      (a.fileOffset.toNat / hs.blockSize) start t q.pair = some (-Errno.EINVAL.code, t, q.pair) := by
    rw [hfuel, ioLoop, if_neg (by have := hv.size_pos; omega)]
    simp only [chunkSize_large hlarge, if_true]
  rw [doIo_valid dev t hv hb hn hq, hl]
  exact ⟨_, rfl, rfl⟩

/-- A loop that returns does not return `-EINVAL`, also not as a number of bytes: a transfer of
`2^64 - 22` bytes does not fit any handle. -/
theorem not_refused (g : Paged hs) (hv : a.Valid hs) {x : NvmDma × Bool × Nat}
    (hb : ioBuffer hs (some dma) mapDevice a = .ok x) (hn : hs.numQps ≠ 0) {q : IOQueuePair}
    (hq : hs.qps[hs.qpIdx]? = some q) {length : Nat}
    (hsize : dma.nIoaddrs * hs.ctrl.pageSize = gpuRound length) (hlt : gpuRound length < 2 ^ 64) :
    ¬Refused (doIo dev t hs (some dma) mapDevice a) := by
  obtain ⟨rfl, -, -⟩ := ioBuffer_registered hb
  have hblocks : hs.blockSize ∣ a.size - 0 := Nat.dvd_of_mod_eq_zero hv.size_block
  rintro ⟨r, hr, hret⟩
  rw [doIo_valid dev t hv hb hn hq] at hr
  obtain ⟨⟨ret, t', pair⟩, hl, rfl⟩ := Option.map_eq_some_iff.mp hr
  rcases g.ioLoop_ret (Nat.zero_le _) hblocks hl with he | ⟨he, hin⟩
  · exact absurd (he.symm.trans hret) (by decide)
  · obtain ⟨r, hr, hlast⟩ := g.last_req (a.fileOffset.toNat / hs.blockSize)
      (a.bufOffset.toNat / hs.ctrl.pageSize) (Nat.pos_of_ne_zero hv.size_pos) hblocks le_rfl
    have hle := hin r hr
    rw [hlast, Nat.sub_zero] at hle
    have hceil := (Nat.div_le_iff_le_mul_add_pred g.page_pos).mp
      (Nat.le_refl ((a.size + hs.ctrl.pageSize - 1) / hs.ctrl.pageSize))
    have hmul := Nat.mul_le_mul_right hs.ctrl.pageSize ((Nat.le_add_left _ _).trans hle)
    rw [Nat.mul_comm] at hmul
    have hp := g.page_pos
    have hsz := a.size_lt
    have hcode : Errno.EINVAL.code = 22 := rfl
    simp only at hret
    rw [he, ssize, hcode] at hret
    unfold gpuRound at hsize hlt
    split at hret <;> omega

/-- The check on a registered buffer. -/
theorem ioBuffer_registered_cases (hs : HandleState) (dma : NvmDma)
    (mapDevice : Nat → Nat → Except Errno NvmDma) (a : IoArgs) :
    (ioBuffer hs (some dma) mapDevice a = .error .EINVAL ∧
        (a.bufOffset.toNat % hs.ctrl.pageSize = 0 →
          ¬u64 (a.bufOffset.toNat / hs.ctrl.pageSize +
            u64 (a.size + hs.ctrl.pageSize - 1) / hs.ctrl.pageSize) ≤ dma.nIoaddrs)) ∨
      ioBuffer hs (some dma) mapDevice a =
        .ok (dma, false, a.bufOffset.toNat / hs.ctrl.pageSize) := by
  simp only [ioBuffer]
  split
  · exact .inl ⟨rfl, fun h => absurd h ‹_›⟩
  split
  · exact .inl ⟨rfl, fun _ => Nat.not_le.mpr ‹_›⟩
  · exact .inr rfl

/-- The turns of a transfer that ends before `length` are inside the range exactly if it begins at or
after the pointer. -/
theorem turns_inside_iff (g : Paged hs) (hv : a.Valid hs)
    (hoff : a.bufOffset.toNat % hs.ctrl.pageSize = 0) {length : Nat}
    (hend : a.bufOffset.toNat + a.size ≤ length) :
    (∀ (dev : Device) (t : Nat) (qp : Qp),
        ∀ r ∈ ioTurns dev hs dma a.opcode a.size (a.size / hs.blockSize) 0
            (a.fileOffset.toNat / hs.blockSize) (a.bufOffset.toNat / hs.ctrl.pageSize) t qp,
          r.Inside hs.ctrl.pageSize a.base length) ↔
      a.base % GPU_PAGE_SIZE ≤ a.bufOffset.toNat := by
  have hstart : a.bufOffset.toNat / hs.ctrl.pageSize * hs.ctrl.pageSize = a.bufOffset.toNat :=
    Nat.div_mul_cancel (Nat.dvd_of_mod_eq_zero hoff)
  have hblocks : hs.blockSize ∣ a.size - 0 := Nat.dvd_of_mod_eq_zero hv.size_block
  have hbase := Nat.div_add_mod' a.base GPU_PAGE_SIZE
  have hpos := Nat.pos_of_ne_zero hv.size_pos
  constructor
  · intro h
    -- the first turn on an idle pair
    obtain ⟨hc0, -⟩ := g.chunk hpos (Nat.dvd_of_mod_eq_zero hv.size_block)
    obtain ⟨fuel, hfuel⟩ := hv.turns
    obtain ⟨rest, he, -⟩ := @ioTurns_cons .silent hs dma a.opcode a.size sampleQp 0 sampleQp_idle
      hpos (by rw [Nat.sub_zero]; omega) fuel (a.fileOffset.toNat / hs.blockSize)
      (a.bufOffset.toNat / hs.ctrl.pageSize) 0
    have hin := h .silent 0 sampleQp _ (by rw [hfuel, he]; exact List.mem_cons_self)
    have h1 := hin.1
    simp only [hstart] at h1
    omega
  · intro h dev t qp r hr
    obtain ⟨h1, h2⟩ := g.req_bytes hblocks ((ioTurns_initial ..).subset hr)
    have h3 := Nat.mul_le_mul_right hs.ctrl.pageSize h1
    rw [hstart] at h2 h3
    constructor <;> omega

/-- A call on a buffer whose handle has the rounded `length`. -/
theorem call_inside_iff {j b : Nat} (hj : 1 ≤ j) (hj' : j < 64) (hpage : hs.ctrl.pageSize = 2 ^ j)
    (hpow : hs.blockSize ≤ hs.maxXfer → hs.Pow j b) (hn : hs.numQps ≠ 0) {q : IOQueuePair}
    (hq : hs.qps[hs.qpIdx]? = some q) {length : Nat}
    (hsize : dma.nIoaddrs * 2 ^ j = gpuRound length) (hlt : gpuRound length < 2 ^ 64) :
    (¬Refused (doIo dev t hs (some dma) mapDevice a) →
        a.bufOffset.toNat + a.size ≤ length ∧
        ∀ (dev : Device) (t : Nat) (qp : Qp),
          ∀ r ∈ ioTurns dev hs dma a.opcode a.size (a.size / hs.blockSize) 0
              (a.fileOffset.toNat / hs.blockSize) (a.bufOffset.toNat / 2 ^ j) t qp,
            r.Inside (2 ^ j) a.base length) ↔
      (a.Valid hs → a.bufOffset.toNat % 2 ^ j = 0 → hs.blockSize ≤ hs.maxXfer →
        StaysInside (2 ^ j) length a) := by
  have hcheck (hoff : a.bufOffset.toNat % 2 ^ j = 0) :
      u64 (a.bufOffset.toNat / 2 ^ j + u64 (a.size + 2 ^ j - 1) / 2 ^ j) ≤ dma.nIoaddrs ↔
        if a.size + 2 ^ j ≤ 2 ^ 64 then a.bufOffset.toNat + a.size ≤ gpuRound length
        else a.bufOffset.toNat ≤ gpuRound length := by
    have hofflt := a.bufOffset_lt
    rw [← hsize]
    have hp : 2 ^ 1 ≤ 2 ^ j := Nat.pow_le_pow_right (by decide) hj
    have hp' : 2 ^ j ≤ 2 ^ 64 := Nat.pow_le_pow_right (by decide) hj'.le
    exact check_iff hp hp' hoff (by omega) a.size_lt
  unfold StaysInside
  by_cases hv : a.Valid hs
  swap
  · exact iff_of_true (fun h => absurd ⟨_, doIo_not_valid hv, rfl⟩ h) fun h => absurd h hv
  rcases ioBuffer_registered_cases hs dma mapDevice a with ⟨herr, hno⟩ | hok
  · refine iff_of_true (fun h => absurd ⟨_, doIo_error hv herr, rfl⟩ h) fun _ hoff _ => ?_
    rw [hpage] at hno
    have := (hcheck hoff).not.mp (hno hoff)
    split at this
    · rw [if_pos ‹_›]
      exact .inl (Nat.not_le.mp this)
    · rw [if_neg ‹_›]
      exact Nat.not_le.mp this
  · obtain ⟨-, hoff, hle⟩ := ioBuffer_registered hok
    by_cases hfits : hs.blockSize ≤ hs.maxXfer
    swap
    · exact iff_of_true (fun h => absurd (refused_of_large hv hok hn hq (Nat.not_le.mp hfits)) h)
        fun _ _ h => absurd h hfits
    have g := paged_of_pow (hpow hfits) hfits
    have hnot : ¬Refused (doIo dev t hs (some dma) mapDevice a) :=
      not_refused g hv hok hn hq (by rw [hpage]; exact hsize) hlt
    have hturns := @turns_inside_iff hs dma a g hv hoff length
    rw [hpage] at hoff hle hturns
    have hle' := (hcheck hoff).mp hle
    simp only [hnot, hv, hoff, hfits, not_false_eq_true, true_imp_iff]
    split at hle'
    · rw [if_pos ‹_›, or_iff_right (Nat.not_lt.mpr hle')]
      exact and_congr_right hturns
    · -- the transfer is longer than any handle
      rw [if_neg ‹_›]
      refine iff_of_false (fun h => ?_) (Nat.not_lt.mpr hle')
      have hround := le_gpuRound length
      have hdvd : 2 ^ j ∣ 2 ^ 64 - gpuRound length :=
        Nat.dvd_sub (Nat.pow_dvd_pow 2 hj'.le) (hsize ▸ Nat.dvd_mul_left _ _)
      have := Nat.le_of_dvd (by omega) hdvd
      have := h.1
      omega

end Call

/-! ## The sizes of registered buffers -/

/-- Where pages are powers of two, a controller is opened with pages of 4 KiB to 128 MiB only. -/
theorem nvmCtrlInit_page {alloc : Bool} {j : Nat} {cap : BitVec 64} {ctrl : NvmCtrl}
    (h : nvmCtrlInit alloc (2 ^ j) cap = .ok ctrl) : 12 ≤ j ∧ j ≤ 27 := by
  obtain ⟨hpos, hlt⟩ := nvmCtrlInit_encoded h
  have hj : 12 ≤ j := by
    by_contra hj
    have : 2 ^ j < 2 ^ 12 := Nat.pow_lt_pow_right (by decide) (by omega)
    rw [Nat.div_eq_of_lt this] at hpos
    exact absurd hpos (by decide)
  rw [Nat.pow_div hj (by decide), u32] at hpos hlt
  have hj' : j - 12 < 32 := by
    by_contra hj'
    rw [Nat.mod_eq_zero_of_dvd (Nat.pow_dvd_pow 2 (by omega))] at hpos
    exact absurd hpos (by decide)
  rw [Nat.mod_eq_of_lt (Nat.pow_lt_pow_right (by decide) hj'),
    Nat.pow_lt_pow_iff_right (by decide)] at hlt
  omega

/-- The handle of a range of GPU memory: its pages are those of the rounded length. -/
theorem nvmDmaMapDevice_size {P : Nat} {k : KState} {env : DmaEnv} {gpu : GpuEnv}
    {copyIn copyOut : Bool} {mapper : Mapper} {devptr length : Nat} {dma : NvmDma}
    (h : (nvmDmaMapDevice P k env gpu copyIn copyOut mapper devptr length).2 = .ok dma)
    (hl : length < 2 ^ 64) :
    dma.nIoaddrs * mapper.ctrl.pageSize = gpuRound length ∧ gpuRound length < 2 ^ 64 := by
  have hG : GPU_PAGE_SIZE = 2 ^ 16 := rfl
  rw [nvmDmaMapDevice, hG] at h
  obtain ⟨hpos, -, -, -, haddrs⟩ := nvmDmaMapRange_ok (by decide : 16 ≤ 64) h
  have hwhole := nvmDmaMapRange_whole (by decide : 16 ≤ 64) h
  have hround : nvmPageAlign length (2 ^ 16) = gpuRound length := by
    have hfits := nvmPageAlign_fits (by decide : 16 ≤ 64) hl hpos.ne'
    rw [nvmPageAlign_pow (by decide : 16 ≤ 64), u64_of_lt hfits, gpuRound]
    omega
  rw [Nat.mul_comm, nvmPageAlign_mul (by decide : 16 ≤ 64), hround] at haddrs hwhole
  refine ⟨?_, ?_⟩
  · rw [NvmDma.nIoaddrs, haddrs, List.length_map, List.length_range]
    exact Nat.div_mul_cancel hwhole
  · rw [← hround]
    exact nvmPageAlign_lt (by decide : 16 ≤ 64) length

namespace World

section Register

variable {dev : Device} {P : Nat} {w w' : World} {r : RegCall} {e : OpError}

theorem registerAq_ctrl {mapper : Mapper} {aqDma : NvmDma} {pair : Qp}
    (h : registerAq dev P w r mapper aqDma pair = some (e, w')) :
    ∀ hs ∈ w'.handles, hs ∈ w.handles ∨ hs.ctrl = mapper.ctrl := by
  intro hs hmem
  simp only [registerAq] at h
  split at h
  · cases h
  · cases h
    exact .inl hmem
  · cases h
    rcases List.mem_append.mp hmem with hmem | hmem
    · exact .inl hmem
    · rw [List.mem_singleton.mp hmem]
      exact .inr rfl

theorem handleRegister_page (h : w.handleRegister dev P r = some (e, w')) :
    ∀ hs ∈ w'.handles, hs ∈ w.handles ∨ hs.ctrl.pageSize = P := by
  intro hs hmem
  cases registers_of_call h with
  | refused _ => exact .inl hmem
  | unmapped k dmas =>
    obtain ⟨k', log, heq⟩ := unmaps_eq { w.numbered r with k := k } r.current dmas
    rw [heq] at hmem
    exact .inl hmem
  | @reset ctrl _ _ _ _ _ _ hctrl _ hreg =>
    refine (registerAq_ctrl hreg hs hmem).imp id fun he => ?_
    rw [he, (nvmCtrlInit_ok hctrl).2]

/-- A new entry is a mapping through the default controller. -/
theorem bufRegister_mapped {env : DeviceMapEnv} {current : Task} {base length : Nat}
    (h : w.bufRegister P env current base length = some (e, w')) :
    ∀ b ∈ w'.bufRegistry, b ∈ w.bufRegistry ∨ b.key = base ∧ b.id = w.nextBuf ∧
      ∃ hs ∈ w.handles, (w.mapDevice P env current hs base length).2 = .ok b.dma := by
  intro b hmem
  obtain ⟨-, k, rfl, -⟩ | ⟨id, hs, k, dma, -, -, -, -, hf, hm, rfl⟩ := bufRegister_cases h
  · exact .inl hmem
  · rcases List.mem_append.mp hmem with hmem | hmem
    · exact .inl hmem
    · rw [List.mem_singleton.mp hmem]
      exact .inr ⟨rfl, rfl, hs, (find_mem hf).1, by rw [hm]⟩

end Register

/-- The entry `b` was made by a step of `tr` that registered `length` bytes. -/
def SizedBy (dev : Device) (P : Nat) (tr : List (World × Label)) (b : Buf) : Prop :=
  ∃ w₀ w₁ env current length, (w₀, .bufRegister env current b.key length) ∈ tr ∧
    w₀.step dev P (.bufRegister env current b.key length) = some w₁ ∧ w₀.nextBuf = b.id ∧
    b ∈ w₁.bufRegistry ∧
    (length < 2 ^ 64 → b.dma.nIoaddrs * P = gpuRound length ∧ gpuRound length < 2 ^ 64)

/-- All controllers have the host's page size, and the entries of the registry the sizes of their
registration. -/
structure Sized (dev : Device) (P : Nat) (tr : List (World × Label)) (w : World) : Prop where
  pages : ∀ hs ∈ w.handles, hs.ctrl.pageSize = P
  bufs : ∀ b ∈ w.bufRegistry, SizedBy dev P tr b

section Sized

variable {dev : Device} {P : Nat} {w w' : World} {l : Label} {ret : Ret} {tr : List (World × Label)}

theorem SizedBy.mono {b : Buf} (h : SizedBy dev P tr b) (x : World × Label) :
    SizedBy dev P (tr ++ [x]) b := by
  obtain ⟨w₀, w₁, env, current, length, hm, h'⟩ := h
  exact ⟨w₀, w₁, env, current, length, List.mem_append_left _ hm, h'⟩

theorem Sized.of_kept (h : Sized dev P tr w) (x : World × Label)
    (hh : ∀ hs ∈ w'.handles, hs.ctrl.pageSize = P)
    (hb : ∀ b ∈ w'.bufRegistry, b ∈ w.bufRegistry) : Sized dev P (tr ++ [x]) w' :=
  ⟨hh, fun b hmem => (h.bufs b (hb b hmem)).mono x⟩

theorem Sized.pages_set (h : Sized dev P tr w) {id : Nat} {hs hs' : HandleState}
    (hf : w.find id = some hs) (hm : hs.Moves hs') :
    ∀ x ∈ (w.setHandle hs').handles, x.ctrl.pageSize = P := by
  intro x hx
  rcases mem_setHandle hx with hx | rfl
  · exact h.pages x hx
  · rw [hm.geometry.1]
    exact h.pages hs (find_mem hf).1

theorem Sized.call {j : Nat} (h : Sized dev (2 ^ j) tr w)
    (hc : w.call dev (2 ^ j) l = some (ret, w')) : Sized dev (2 ^ j) (tr ++ [(w, l)]) w' := by
  have he := call_effect hc
  cases he with
  | opened => exact h.of_kept _ h.pages fun _ hb => hb
  | closed hi => exact h.of_kept _ h.pages fun _ hb => absurd hb List.not_mem_nil
  | refused hl he => exact h.of_kept _ h.pages fun _ hb => hb
  | notReset he => exact h.of_kept _ h.pages fun _ hb => hb
  | notBuilt he => exact h.of_kept _ h.pages fun _ hb => hb
  | registered hi hid hbuilt haq ho hq =>
    obtain ⟨x, hx, he⟩ := Option.map_eq_some_iff.mp hc
    refine h.of_kept _ (fun hs hmem => ?_) fun _ hb => hb
    have hpage := handleRegister_page hx hs
    rw [(Prod.ext_iff.mp he).2] at hpage
    exact (hpage hmem).elim (h.pages hs) id
  | deregistered hf => exact h.of_kept _ (fun hs hx => h.pages hs (List.mem_filter.mp hx).1) fun _ hb => hb
  | @bufRegistered env current base length id hs k dma hi hnew hd hf hctrl =>
    have hstep := congrArg (Option.map Prod.snd) hc
    obtain ⟨x, hx, he⟩ := Option.map_eq_some_iff.mp hc
    have hmapped := bufRegister_mapped hx
    rw [(Prod.ext_iff.mp he).2] at hmapped
    refine ⟨h.pages, fun b hmem => ?_⟩
    rcases hmapped b hmem with hold | ⟨rfl, hid, hs', hmem', hm⟩
    · exact (h.bufs b hold).mono _
    · refine ⟨w, _, env, current, length, ?_, hstep, hid.symm, hmem, fun hl => ?_⟩
      · exact List.mem_append_right _ (List.mem_singleton_self _)
      · rw [← h.pages hs' hmem']
        exact nvmDmaMapDevice_size hm hl
  | bufDeregistered hi hb =>
    exact h.of_kept _ h.pages fun _ hb => (List.mem_filter.mp hb).1
  | transferred hf hm => exact h.of_kept _ (h.pages_set hf hm) fun _ hb => hb
  | acted hf hm ht => exact h.of_kept _ (h.pages_set hf hm) fun _ hb => hb
  | actedFreed hf hs => exact h.of_kept _ h.pages fun _ hb => hb

theorem sized_of_run {j nCtrls : Nat} (hrun : Run (World.step dev (2 ^ j)) (.init nCtrls) tr w) :
    Sized dev (2 ^ j) tr w := by
  have hinit : Sized dev (2 ^ j) [] (init nCtrls) := ⟨by simp [init], by simp [init]⟩
  refine Run.inv_trace (Sized dev (2 ^ j)) (fun tr s l s' hi h => ?_) hrun hinit
  obtain ⟨⟨ret, s₁⟩, hc, rfl⟩ := Option.map_eq_some_iff.mp h
  exact hi.call hc

end Sized

end World

/-- The sizes that a registration gives a handle. A block size that is no power of two is larger than
any transfer. -/
theorem HandleState.BuiltBy.pow {hs : HandleState} {reg : RegCall} {j : Nat} (h : hs.BuiltBy reg)
    (hpage : hs.ctrl.pageSize = 2 ^ j) :
    12 ≤ j ∧ j ≤ 27 ∧ ∃ b, hs.blockSize ≤ hs.maxXfer → hs.Pow j b := by
  have hctrl := h.ctrl
  rw [hpage] at hctrl
  obtain ⟨hj, hj'⟩ := nvmCtrlInit_page hctrl
  refine ⟨hj, hj', reg.lbads, fun hfits => ⟨by omega, hpage, ?_, maxDataSize_pow h.limit⟩⟩
  have hblock := h.block
  simp only [lbaDataSize] at hblock
  split at hblock
  · exact (Option.some.inj hblock).symm
  split at hblock
  · exfalso
    have hx := (maxXfer_cases hs).1.trans (Nat.mod_le _ _)
    have hle : 2 ^ j ≤ 2 ^ 27 := Nat.pow_le_pow_right (by decide) hj'
    have hmul := Nat.mul_le_mul (Nat.add_le_add_right (Nat.div_le_div_right hle : 2 ^ j / 8 ≤ _) 1) hle
    rw [hpage] at hx
    have hb := Option.some.inj hblock
    omega
  · cases hblock

/-- A transfer on a registered buffer in any reachable state, and the step of the run that registered
it, with `length`. That the transfer, unless it is refused with `-EINVAL`, ends before `length` and
that none of its turns leaves the registered range, is the case exactly if `StaysInside`, for calls
that pass the checks on their arguments. -/
theorem io_inside_registered {dev : Device} {j nCtrls : Nat} {tr : List (World × Label)} {w : World}
    (hrun : Run (World.step dev (2 ^ j)) (.init nCtrls) tr w) {h : Nat} {hs : HandleState}
    (hf : w.find h = some hs) (hn : hs.numQps ≠ 0) {q : IOQueuePair}
    (hq : hs.qps[hs.qpIdx]? = some q) {a : IoArgs} {b : Buf} (hb : w.findBuf a.base = some b)
    (env : World.DeviceMapEnv) (current : Task) :
    ∃ w₀ w₁ env' current' length, (w₀, .bufRegister env' current' a.base length) ∈ tr ∧
      w₀.step dev (2 ^ j) (.bufRegister env' current' a.base length) = some w₁ ∧
      w₀.nextBuf = b.id ∧ b ∈ w₁.bufRegistry ∧
      (length < 2 ^ 64 →
        ((¬Refused (w.callIo dev (2 ^ j) env current hs a) →
            a.bufOffset.toNat + a.size ≤ length ∧
            ∀ (dev : Device) (t : Nat) (qp : Qp),
              ∀ r ∈ ioTurns dev hs b.dma a.opcode a.size (a.size / hs.blockSize) 0
                  (a.fileOffset.toNat / hs.blockSize) (a.bufOffset.toNat / 2 ^ j) t qp,
                r.Inside (2 ^ j) a.base length) ↔
          (a.Valid hs → a.bufOffset.toNat % 2 ^ j = 0 → hs.blockSize ≤ hs.maxXfer →
            StaysInside (2 ^ j) length a))) := by
  have hwf := World.bufsMade_of_run hrun
  have hsized := World.sized_of_run hrun
  have hmem := (World.find_mem hf).1
  have hpage := hsized.pages hs hmem
  obtain ⟨reg, hbuilt⟩ := (hwf.handles hs hmem).built
  obtain ⟨hj, hj', bl, hpow⟩ := hbuilt.pow hpage
  have hkey : b.key = a.base := by simpa using List.find?_some hb
  obtain ⟨w₀, w₁, env', current', length, hm, hstep, hid, hb₁, hlen⟩ :=
    hsized.bufs b (List.mem_of_find?_eq_some hb)
  rw [hkey] at hm hstep
  refine ⟨w₀, w₁, env', current', length, hm, hstep, hid, hb₁, fun hl => ?_⟩
  obtain ⟨hsize, hlt⟩ := hlen hl
  rw [World.callIo, World.lookup, hb]
  exact call_inside_iff (by omega) (by omega) hpage hpow hn hq hsize hlt

/-- A read of one page into a buffer that was registered with 64 KiB: it is not refused, and no turn
leaves the 64 KiB. -/
theorem io_inside_registered_page :
    ∃ tr w hs b, Run (World.step .prompt (2 ^ 12)) (.init 1) tr w ∧ w.find 0 = some hs ∧
      w.findBuf 0x200000 = some b ∧
      (∃ w₀ env current, (w₀, .bufRegister env current 0x200000 65536) ∈ tr ∧ w₀.nextBuf = b.id) ∧
      ¬Refused (w.callIo .prompt (2 ^ 12) .ok ⟨0, 0⟩ hs (.page 0x200000)) ∧
      ∀ (dev : Device) (t : Nat) (qp : Qp),
        ∀ r ∈ ioTurns dev hs b.dma NVM_IO_READ 4096 (4096 / hs.blockSize) 0 (0 / hs.blockSize)
            (0 / 2 ^ 12) t qp, r.Inside (2 ^ 12) 0x200000 65536 := by
  obtain ⟨tr, w, hrun, htr, -, hw⟩ := follow_trace (World.step .prompt (2 ^ 12)) (fun _ _ => true)
    (.init 1) [.driverOpen, .handleRegister (.ok 0), .bufRegister .ok ⟨0, 0⟩ 0x200000 65536]
    (fun w => (w.findBuf 0x200000).isSome && (w.tryIo (2 ^ 12) 0 (.page 0x200000)).any fun x =>
      x.2.1.ret = 4096 && x.1.numQps ≠ 0 && (x.1.qps[x.1.qpIdx]?).isSome) (by decide +kernel)
  obtain ⟨hb, hw⟩ := Bool.and_eq_true_iff.mp hw
  obtain ⟨b, hb⟩ := Option.isSome_iff_exists.mp hb
  obtain ⟨⟨hs, r, dma⟩, he, hw⟩ := (Option.any_eq_true _ _).mp hw
  obtain ⟨hf, hr, -⟩ := World.tryIo_some he
  simp only [Bool.and_eq_true, decide_eq_true_eq] at hw
  obtain ⟨⟨hret, hn⟩, hq⟩ := hw
  obtain ⟨q, hq⟩ := Option.isSome_iff_exists.mp hq
  have hnot := not_refused_of_ret hr (by rw [hret]; decide)
  obtain ⟨w₀, -, env, current, length, hm, -, hid, -, hiff⟩ :=
    @io_inside_registered .prompt 12 1 tr w hrun 0 hs hf hn q hq (.page 0x200000) b hb .ok ⟨0, 0⟩
  -- the run has one call that registers a buffer
  have hlabel := htr ▸ List.mem_map_of_mem (f := Prod.snd) hm
  obtain rfl : length = 65536 := by
    simp only [List.mem_cons, reduceCtorEq, Label.bufRegister.injEq, false_or, List.not_mem_nil,
      or_false] at hlabel
    exact hlabel.2.2.2
  have hstays : StaysInside (2 ^ 12) 65536 (.page 0x200000) := by
    unfold StaysInside
    decide
  exact ⟨tr, w, hs, b, hrun, hf, hb, ⟨w₀, env, current, hm, hid⟩, hnot,
    ((hiff (by decide)).mpr (fun _ _ _ => hstays) hnot).2⟩

theorem largePage_lt : 65536 < 2 ^ 64 := by decide

/-- A read of 64 KiB. -/
def IoArgs.large : IoArgs :=
  ⟨0x200000, 65536, 0, 0, NVM_IO_READ, sampleBase_lt, largePage_lt, zeroOffset_lt, zeroOffset_lt⟩

/-- A buffer of 4 KiB is registered, and a read of 64 KiB into it is carried out. -/
theorem io_outside_registered :
    ¬ ∀ (dev : Device) (j nCtrls : Nat) (tr : List (World × Label)) (w : World),
      Run (World.step dev (2 ^ j)) (.init nCtrls) tr w →
      ∀ (h : Nat) (hs : HandleState), w.find h = some hs →
      ∀ (a : IoArgs) (b : Buf), w.findBuf a.base = some b →
      ∀ (w₀ w₁ : World) (env' : World.DeviceMapEnv) (current' : Task) (length : Nat),
        (w₀, .bufRegister env' current' a.base length) ∈ tr →
        w₀.step dev (2 ^ j) (.bufRegister env' current' a.base length) = some w₁ →
        w₀.nextBuf = b.id → b ∈ w₁.bufRegistry → length < 2 ^ 64 →
      ∀ (env : World.DeviceMapEnv) (current : Task),
        ¬Refused (w.callIo dev (2 ^ j) env current hs a) →
        a.bufOffset.toNat + a.size ≤ length := by
  intro hall
  obtain ⟨tr, w₀, hrun, -, hw⟩ := follow_run (World.step .prompt (2 ^ 12)) (fun _ _ => true) (.init 1)
    [.driverOpen, .handleRegister (.ok 0)]
    (fun w₀ => (w₀.step .prompt (2 ^ 12) (.bufRegister .ok ⟨0, 0⟩ 0x200000 4096)).any fun w =>
      (w.findBuf 0x200000).any (fun b => b.id = w₀.nextBuf) &&
        (w.tryIo (2 ^ 12) 0 .large).any fun x => x.2.1.ret = 65536) (by decide +kernel)
  obtain ⟨w, hstep, hw⟩ := (Option.any_eq_true _ _).mp hw
  obtain ⟨hb, hw⟩ := Bool.and_eq_true_iff.mp hw
  obtain ⟨b, hb, hid⟩ := (Option.any_eq_true _ _).mp hb
  obtain ⟨⟨hs, r, dma⟩, he, hret⟩ := (Option.any_eq_true _ _).mp hw
  obtain ⟨hf, hr, -⟩ := World.tryIo_some he
  have hret := of_decide_eq_true hret
  have hnot := not_refused_of_ret hr (by rw [hret]; decide)
  have hle := hall .prompt 12 1 _ w (hrun.trans (.single hstep)) 0 hs hf .large b hb w₀ w .ok ⟨0, 0⟩
    4096 (List.mem_append_right _ (List.mem_singleton_self _)) hstep (of_decide_eq_true hid).symm
    (List.mem_of_find?_eq_some hb) (by decide) .ok ⟨0, 0⟩ hnot
  exact absurd hle (by decide)

end UGDS
