import UGDS.Nvm.Dma

/-!
# UGDS.Nvm.Rounding

From sizes to numbers of pages (`linux_dma.cpp`, `nvm_util.h`).

`NVM_PAGE_ALIGN` adds and masks in 64 bits, so that a size near `2^64` wraps around. What is left is
then less than a page and is rounded to 0, and a number of 0 pages is refused. `nvm_dma_map_host` and
`nvm_dma_create` round to controller pages before `create_mapping_descriptor` does it again; the CUDA
path of `nvm_dma_map_device` rounds once, to 64 KiB pages.

The functions are modelled here with the check of the controller's type, which `nvm_dma_map_device`
does before it looks at the size and the others do after it.

* `nvmDmaMapRange_rounds`: the pages that are mapped for a size.
* `page_rounding`: the same for the calls.
* `nvmDmaCreate_covers`: a handle of `nvm_dma_create` is as large as its buffer.
-/

namespace UGDS
namespace Nvm

open Lib Drv

/-! ## Any type of controller -/

/-- `enum device_type`. -/
inductive DeviceType where
  | unknown
  | ioctl
  | smartio
  deriving DecidableEq

namespace DeviceType

/-- `nvm_dma_map_host`. -/
def nvmDmaMapHost (type : DeviceType) (P : Nat) (k : KState) (env : DmaEnv) (hostEnv : HostEnv)
    (copyIn copyOut : Bool) (mapper : Mapper) (vaddr size : Nat) : KState × Except Errno NvmDma :=
  let size := nvmPageAlign size mapper.ctrl.pageSize
  if size = 0 then (k, .error .EINVAL)
  else if type ≠ .ioctl then (k, .error .EBADF)
  else
    nvmDmaMapRange P k env mapper mapper.ctrl.pageSize vaddr size fun nPages =>
      .mapHost copyIn copyOut vaddr nPages hostEnv

/-- `nvm_dma_map_device`, the CUDA path. -/
def nvmDmaMapDevice (type : DeviceType) (P : Nat) (k : KState) (env : DmaEnv) (gpuEnv : GpuEnv)
    (copyIn copyOut : Bool) (mapper : Mapper) (devptr size : Nat) : KState × Except Errno NvmDma :=
  if type ≠ .ioctl then (k, .error .EBADF)
  else
    nvmDmaMapRange P k env mapper GPU_PAGE_SIZE devptr size fun nPages =>
      .mapDevice copyIn copyOut devptr nPages gpuEnv

/-- `nvm_dma_create`, with the buffer that stays allocated and its size. `memalign` is
`posix_memalign`. -/
def nvmDmaCreate (type : DeviceType) (P : Nat) (k : KState) (env : DmaEnv) (hostEnv : HostEnv)
    (copyIn copyOut : Bool) (memalign : (align size : Nat) → Except Errno Nat) (mapper : Mapper)
    (size : Nat) : KState × Except Errno NvmDma × Option (Nat × Nat) :=
  let size := nvmPageAlign size mapper.ctrl.pageSize
  if size = 0 then (k, .error .EINVAL, none)
  else if type ≠ .ioctl then (k, .error .EBADF, none)
  else
    match memalign mapper.ctrl.pageSize size with
    | .error e => (k, .error e, none)
    | .ok buffer =>
      let r := nvmDmaMapRange P k env mapper mapper.ctrl.pageSize buffer size fun nPages =>
        .mapHost copyIn copyOut buffer nPages hostEnv
      match r.2 with
      | .error e => (r.1, .error e, none)
      | .ok dma => (r.1, .ok dma, some (buffer, size))

/-- The functions of `UGDS.Nvm.Dma` are those for the controllers of `nvm_ctrl_init`. -/
theorem nvmDmaMapHost_ioctl : nvmDmaMapHost .ioctl = Nvm.nvmDmaMapHost := rfl

theorem nvmDmaMapDevice_ioctl : nvmDmaMapDevice .ioctl = Nvm.nvmDmaMapDevice := rfl

end DeviceType

/-! ## Numbers of pages -/

/-- What follows the rounding: the descriptor and the handle for `nPages` pages of `page` bytes. -/
def mapPages (P : Nat) (k : KState) (env : DmaEnv) (mapper : Mapper) (page vaddr nPages : Nat)
    (req : Nat → Request) : KState × Except Errno NvmDma :=
  if !env.descriptor then (k, .error .ENOMEM)
  else nvmDmaInit P k env mapper ⟨vaddr, page, nPages⟩ (req nPages)

theorem nvmDmaMapRange_eq (P : Nat) (k : KState) (env : DmaEnv) (mapper : Mapper)
    (page vaddr size : Nat) (req : Nat → Request) :
    nvmDmaMapRange P k env mapper page vaddr size req =
      if nvmPageAlign size page / page = 0 then (k, .error .EINVAL)
      else mapPages P k env mapper page vaddr (nvmPageAlign size page / page) req := by
  unfold nvmDmaMapRange createMappingDescriptor mapPages
  by_cases hn : nvmPageAlign size page / page = 0
  · simp only [if_pos hn]
  · cases hd : env.descriptor with
    | false => simp [hn]
    | true => simp [hn]

section

variable {j size : Nat}

theorem nvmDmaMapRange_rounds (hj : j ≤ 64) (hsize : size < 2 ^ 64) (P : Nat) (k : KState)
    (env : DmaEnv) (mapper : Mapper) (vaddr : Nat) (req : Nat → Request) :
    nvmDmaMapRange P k env mapper (2 ^ j) vaddr size req = (k, .error .EINVAL) ∨
      ∃ n, Covers n (2 ^ j) size ∧ nvmDmaMapRange P k env mapper (2 ^ j) vaddr size req =
        mapPages P k env mapper (2 ^ j) vaddr n req := by
  rw [nvmDmaMapRange_eq]
  by_cases hn : nvmPageAlign size (2 ^ j) / 2 ^ j = 0
  · exact .inl (if_pos hn)
  · exact .inr ⟨_, nvmPageAlign_covers hj hsize hn, if_neg hn⟩

theorem nvmDmaMapRange_wrap (hj : j ≤ 64) (hsize : size < 2 ^ 64) (h : 2 ^ 64 ≤ size + 2 ^ j - 1)
    (P : Nat) (k : KState) (env : DmaEnv) (mapper : Mapper) (vaddr : Nat) (req : Nat → Request) :
    nvmDmaMapRange P k env mapper (2 ^ j) vaddr size req = (k, .error .EINVAL) := by
  rw [nvmDmaMapRange_eq, nvmPageAlign_wrap hj hsize h, Nat.zero_div, if_pos rfl]

/-- Mapping a size that was rounded is mapping the size. -/
theorem nvmDmaMapRange_again (hj : j ≤ 64) (P : Nat) (k : KState) (env : DmaEnv) (mapper : Mapper)
    (vaddr : Nat) (req : Nat → Request) :
    nvmDmaMapRange P k env mapper (2 ^ j) vaddr (nvmPageAlign size (2 ^ j)) req =
      nvmDmaMapRange P k env mapper (2 ^ j) vaddr size req := by
  simp only [nvmDmaMapRange_eq, nvmPageAlign_again hj]

end

/-! ## The calls -/

/-- A call about `size` bytes in pages of `page` bytes: it returns `EINVAL`, or it goes on with a number
of pages that are right for the size. A controller that is not mapped through a file descriptor
gets `EBADF`. -/
def Rounds (type : DeviceType) (page size : Nat) (k : KState)
    (call : KState × Except Errno NvmDma) (go : Nat → KState × Except Errno NvmDma) : Prop :=
  call = (k, .error .EINVAL) ∨ (type ≠ .ioctl ∧ call = (k, .error .EBADF)) ∨
    ∃ n, Covers n page size ∧ call = go n

theorem page_rounding (j : Nat) (hj : j < 64) (size : Nat) (hsize : size < 2 ^ 64)
    (type : DeviceType) (P : Nat) (k : KState) (env : DmaEnv) (hostEnv : HostEnv) (gpuEnv : GpuEnv)
    (copyIn copyOut : Bool) (mapper : Mapper) (hpage : mapper.ctrl.pageSize = 2 ^ j) (vaddr : Nat) :
    let host := type.nvmDmaMapHost P k env hostEnv copyIn copyOut mapper vaddr size
    let device := type.nvmDmaMapDevice P k env gpuEnv copyIn copyOut mapper vaddr size
    Rounds type (2 ^ j) size k host (fun n => mapPages P k env mapper (2 ^ j) vaddr n fun nPages =>
        .mapHost copyIn copyOut vaddr nPages hostEnv) ∧
      Rounds type (2 ^ 16) size k device (fun n => mapPages P k env mapper (2 ^ 16) vaddr n
        fun nPages => .mapDevice copyIn copyOut vaddr nPages gpuEnv) ∧
      (2 ^ 64 ≤ size + 2 ^ j - 1 → host = (k, .error .EINVAL)) ∧
      (2 ^ 64 ≤ size + 2 ^ 16 - 1 → device =
        (k, .error (if type = .ioctl then .EINVAL else .EBADF))) := by
  have hj' : j ≤ 64 := hj.le
  intro host device
  have hhost : host = if nvmPageAlign size (2 ^ j) = 0 then (k, .error .EINVAL)
      else if type ≠ .ioctl then (k, .error .EBADF)
      else nvmDmaMapRange P k env mapper (2 ^ j) vaddr size fun nPages =>
        .mapHost copyIn copyOut vaddr nPages hostEnv := by
    simp only [host, DeviceType.nvmDmaMapHost, hpage, nvmDmaMapRange_again hj']
  have hdevice : device = if type ≠ .ioctl then (k, .error .EBADF)
      else nvmDmaMapRange P k env mapper (2 ^ 16) vaddr size fun nPages =>
        .mapDevice copyIn copyOut vaddr nPages gpuEnv := rfl
  refine ⟨?_, ?_, ?_, ?_⟩
  · rw [Rounds, hhost]
    by_cases hzero : nvmPageAlign size (2 ^ j) = 0
    · exact .inl (if_pos hzero)
    by_cases htype : type ≠ .ioctl
    · exact .inr (.inl ⟨htype, by rw [if_neg hzero, if_pos htype]⟩)
    rw [if_neg hzero, if_neg htype]
    exact (nvmDmaMapRange_rounds hj' hsize P k env mapper vaddr _).imp_right .inr
  · rw [Rounds, hdevice]
    by_cases htype : type ≠ .ioctl
    · exact .inr (.inl ⟨htype, if_pos htype⟩)
    rw [if_neg htype]
    exact (nvmDmaMapRange_rounds (by decide) hsize P k env mapper vaddr _).imp_right .inr
  · intro hwrap
    rw [hhost, if_pos (nvmPageAlign_wrap hj' hsize hwrap)]
  · intro hwrap
    rw [hdevice]
    by_cases htype : type = .ioctl
    · rw [if_neg (not_not_intro htype), if_pos htype]
      exact nvmDmaMapRange_wrap (by decide) hsize hwrap P k env mapper vaddr _
    · rw [if_pos htype, if_neg htype]

/-- The first size for which rounding to 4 KiB pages wraps around. -/
theorem page_rounding_top : sampleMapper.ctrl.pageSize = 2 ^ 12 ∧
    DeviceType.nvmDmaMapHost .ioctl (2 ^ 12) (.init 1) ⟨true, true, true, true, true⟩
        ⟨true, true, .ok 1, fun _ => 0#64, fun _ => none⟩ true true sampleMapper 0
        (2 ^ 64 - 2 ^ 12 + 1) = (.init 1, .error .EINVAL) := by
  have h := page_rounding 12 (by decide) (2 ^ 64 - 2 ^ 12 + 1) (by decide) .ioctl (2 ^ 12) (.init 1)
    ⟨true, true, true, true, true⟩ ⟨true, true, .ok 1, fun _ => 0#64, fun _ => none⟩
    ⟨true, true, true, fun n => .ok n, fun _ => .ok fun _ => 0#64⟩ true true sampleMapper rfl 0
  exact ⟨rfl, h.2.2.1 (by decide)⟩

/-! ## Memory of the library's own -/

/-- The handle has one address for every controller page of its buffer, and the buffer is large enough
for the size that was asked for. -/
theorem nvmDmaCreate_covers {j : Nat} (hj : j < 64) {size : Nat} (hsize : size < 2 ^ 64)
    {type : DeviceType} {P : Nat} {k k' : KState} {env : DmaEnv} {hostEnv : HostEnv}
    {copyIn copyOut : Bool} {memalign : (align size : Nat) → Except Errno Nat} {mapper : Mapper}
    (hpage : mapper.ctrl.pageSize = 2 ^ j) {dma : NvmDma} {buffer : Option (Nat × Nat)}
    (h : type.nvmDmaCreate P k env hostEnv copyIn copyOut memalign mapper size =
      (k', .ok dma, buffer)) :
    ∃ p n, buffer = some (p, n * 2 ^ j) ∧ Covers n (2 ^ j) size ∧ dma.nIoaddrs = n := by
  simp only [DeviceType.nvmDmaCreate, hpage] at h
  split at h
  · cases h
  split at h
  · cases h
  split at h
  · cases h
  split at h
  · cases h
  rename_i p _ _ dma' hdma
  cases h
  obtain ⟨hpos, -, -, -, haddrs⟩ := nvmDmaMapRange_ok hj.le hdma
  rw [nvmPageAlign_again hj.le] at hpos haddrs
  refine ⟨p, nvmPageAlign size (2 ^ j) / 2 ^ j, ?_, nvmPageAlign_covers hj.le hsize hpos.ne', ?_⟩
  · rw [nvmPageAlign_mul hj.le]
  · rw [NvmDma.nIoaddrs, haddrs, List.length_map, List.length_range, hpage,
      Nat.mul_div_cancel_left _ (Nat.two_pow_pos j)]

end Nvm
end UGDS
