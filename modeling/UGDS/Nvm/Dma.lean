import UGDS.Drv.Ioctl
import UGDS.Nvm.Ctrl

/-!
# UGDS.Nvm.Dma

DMA handles of libnvm (`dma.cpp`, `linux_dma.cpp`, `linux_device.cpp`) on top of the kernel module:
from a pointer and a size to a list of bus addresses, one per controller page.

`create_mapping_descriptor` rounds the size to a number of pages of the range, `ioctl_map` asks the
kernel for one address per page, and `populate_handle` splits these pages into controller pages.
The address list that `ioctl_map` hands to the kernel is zeroed and has one entry per page
requested; the kernel fills in as many as it mapped.

* `nvmPageAlign_covers`: the number of pages for a size.
* `nvmDmaInit_ok`: the addresses of a new handle, from what the kernel copied out.
* `map_host_exact`: a host mapping describes every page exactly when all pages were pinned.
* `map_host_partial`: when fewer are pinned the call succeeds all the same.
-/

namespace UGDS
namespace Nvm

open Lib Drv

/-- `NVM_PAGE_ALIGN`. -/
def nvmPageAlign (size page : Nat) : Nat := mask 64 (u64 (page + size - 1)) page

/-- Which of the library's own allocations succeed: the mapping descriptor, the controller
reference and the reference-counted map, the container, and the address list. -/
structure DmaEnv where
  descriptor : Bool
  ctrlRef : Bool
  map : Bool
  container : Bool
  addrList : Bool

/-- `struct va_range`. -/
structure VaRange where
  vaddr : Nat
  pageSize : Nat
  nPages : Nat

/-- `create_mapping_descriptor`. -/
def createMappingDescriptor (env : DmaEnv) (page vaddr size : Nat) : Except Errno VaRange :=
  let nPages := nvmPageAlign size page / page
  if nPages = 0 then .error .EINVAL
  else if !env.descriptor then .error .ENOMEM
  else .ok ⟨vaddr, page, nPages⟩

/-- The address of controller page `i`, of size `cp`, in a range of pages of size `vp`. -/
def ctrlPageAddr (cp vp : Nat) (ioaddrs : List (BitVec 64)) (i : Nat) : BitVec 64 :=
  ioaddrs.getD (i * cp / vp) 0#64 + BitVec.ofNat 64 (i * cp % vp)

/-- `populate_handle`. -/
def populateHandle (va : VaRange) (ctrl : NvmCtrl) (ctrlId : Nat) (ioaddrs : List (BitVec 64)) :
    NvmDma :=
  let cp := ctrl.pageSize
  let n := u64 (va.pageSize * va.nPages) / cp
  let addrs := (List.range n).map (ctrlPageAddr cp va.pageSize ioaddrs)
  { vaddr := va.vaddr
    isLocal := true
    contiguous := (List.range n).all fun i =>
      i = 0 || addrs.getD (i - 1) 0#64 + BitVec.ofNat 64 cp = addrs.getD i 0#64
    pageSize := cp
    ioaddrs := addrs
    ctrl := ctrlId }

/-- The check of `create_container`. -/
def VaRange.alignsWith (va : VaRange) (ctrl : NvmCtrl) : Bool :=
  va.pageSize ≠ 0 && va.nPages ≠ 0 && u64 (va.pageSize * va.nPages) % ctrl.pageSize = 0

/-- Who maps: the thread, the controller it has open, and the handle of that controller. -/
structure Mapper where
  current : Task
  pdev : Nat
  ctrl : NvmCtrl
  ctrlId : Nat

/-- `_nvm_dma_init` with `dma_map` and `ioctl_map`, for a request `req` about the range `va`. -/
def nvmDmaInit (P : Nat) (k : KState) (env : DmaEnv) (mapper : Mapper) (va : VaRange)
    (req : Request) : KState × Except Errno NvmDma :=
  if !env.ctrlRef then (k, .error .ENOSPC)
  else if !env.map then (k, .error .ENOMEM)
  else if !va.alignsWith mapper.ctrl then (k, .error .EINVAL)
  else if !env.container then (k, .error .ENOMEM)
  else if !env.addrList then (k, .error .ENOMEM)
  else
    let r := k.mapIoctl P mapper.current mapper.pdev req
    match r.err with
    | some e => (r.k, .error e)
    | none =>
      -- the kernel writes over the first entries of a zeroed list
      let ioaddrs := r.out ++ List.replicate (va.nPages - r.out.length) 0#64
      (r.k, .ok (populateHandle va mapper.ctrl mapper.ctrlId ioaddrs))

/-- What the mapping functions end with: the descriptor for `size` bytes in pages of `page` bytes,
and the handle. `req` is the request for a number of pages. -/
def nvmDmaMapRange (P : Nat) (k : KState) (env : DmaEnv) (mapper : Mapper) (page vaddr size : Nat)
    (req : Nat → Request) : KState × Except Errno NvmDma :=
  match createMappingDescriptor env page vaddr size with
  | .error e => (k, .error e)
  | .ok va => nvmDmaInit P k env mapper va (req va.nPages)

/-- `nvm_dma_map_host`. -/
def nvmDmaMapHost (P : Nat) (k : KState) (env : DmaEnv) (hostEnv : HostEnv)
    (copyIn copyOut : Bool) (mapper : Mapper) (vaddr size : Nat) : KState × Except Errno NvmDma :=
  let size := nvmPageAlign size mapper.ctrl.pageSize
  if size = 0 then (k, .error .EINVAL)
  else
    nvmDmaMapRange P k env mapper mapper.ctrl.pageSize vaddr size fun nPages =>
      .mapHost copyIn copyOut vaddr nPages hostEnv

/-- `nvm_dma_map_device`, the CUDA path. -/
def nvmDmaMapDevice (P : Nat) (k : KState) (env : DmaEnv) (gpuEnv : GpuEnv)
    (copyIn copyOut : Bool) (mapper : Mapper) (devptr size : Nat) : KState × Except Errno NvmDma :=
  nvmDmaMapRange P k env mapper GPU_PAGE_SIZE devptr size fun nPages =>
    .mapDevice copyIn copyOut devptr nPages gpuEnv

/-! ## Rounding -/

/-- `n` pages of `page` bytes are enough for `size` bytes, and one less is not. -/
def Covers (n page size : Nat) : Prop := size ≤ n * page ∧ n * page < size + page

section Rounding

variable {j size : Nat}

theorem nvmPageAlign_pow (hj : j ≤ 64) (size : Nat) :
    nvmPageAlign size (2 ^ j) = u64 (2 ^ j + size - 1) / 2 ^ j * 2 ^ j :=
  alignUp_eq hj size

theorem nvmPageAlign_lt (hj : j ≤ 64) (size : Nat) : nvmPageAlign size (2 ^ j) < 2 ^ 64 :=
  alignUp_lt hj size

theorem nvmPageAlign_mul (hj : j ≤ 64) (size : Nat) :
    nvmPageAlign size (2 ^ j) / 2 ^ j * 2 ^ j = nvmPageAlign size (2 ^ j) :=
  Nat.div_mul_cancel (dvd_alignUp hj size)

/-- Rounding again changes nothing. -/
theorem nvmPageAlign_again (hj : j ≤ 64) (size : Nat) :
    nvmPageAlign (nvmPageAlign size (2 ^ j)) (2 ^ j) = nvmPageAlign size (2 ^ j) :=
  alignUp_of_dvd hj (nvmPageAlign_lt hj size) (dvd_alignUp hj size)

theorem nvmPageAlign_wrap (hj : j ≤ 64) (hsize : size < 2 ^ 64) (h : 2 ^ 64 ≤ size + 2 ^ j - 1) :
    nvmPageAlign size (2 ^ j) = 0 :=
  alignUp_wrap hj hsize (by omega)

/-- A size that wraps around when it is rounded up is rounded to no page at all. -/
theorem nvmPageAlign_fits (hj : j ≤ 64) (hsize : size < 2 ^ 64)
    (h : nvmPageAlign size (2 ^ j) / 2 ^ j ≠ 0) : 2 ^ j + size - 1 < 2 ^ 64 := by
  by_contra hwrap
  rw [nvmPageAlign_wrap hj hsize (by omega), Nat.zero_div] at h
  exact h rfl

/-- A number of pages that is not 0 is the right one. -/
theorem nvmPageAlign_covers (hj : j ≤ 64) (hsize : size < 2 ^ 64)
    (h : nvmPageAlign size (2 ^ j) / 2 ^ j ≠ 0) :
    Covers (nvmPageAlign size (2 ^ j) / 2 ^ j) (2 ^ j) size := by
  rw [Covers, nvmPageAlign_mul hj]
  exact alignUp_bounds hj (nvmPageAlign_fits hj hsize h)

end Rounding

/-- A range that `create_mapping_descriptor` accepts has at least one page and ends below
`2^64`. -/
theorem createMappingDescriptor_ok {env : DmaEnv} {j : Nat} (hj : j ≤ 64) {vaddr size : Nat}
    {va : VaRange} (h : createMappingDescriptor env (2 ^ j) vaddr size = .ok va) :
    va.pageSize = 2 ^ j ∧ va.nPages = nvmPageAlign size (2 ^ j) / 2 ^ j ∧ 0 < va.nPages ∧
      2 ^ j * va.nPages < 2 ^ 64 := by
  simp only [createMappingDescriptor] at h
  split at h
  · cases h
  split at h
  · cases h
  · rename_i hn _
    cases h
    refine ⟨rfl, rfl, Nat.pos_of_ne_zero hn, ?_⟩
    exact (Nat.mul_div_le _ _).trans_lt (nvmPageAlign_lt hj size)

/-! ## Handles -/

/-- A list filled up with zeros is read like the list itself with 0 as the default. -/
theorem ctrlPageAddr_fill (cp vp n i : Nat) (out : List (BitVec 64)) :
    ctrlPageAddr cp vp (out ++ List.replicate n 0#64) i = ctrlPageAddr cp vp out i := by
  simp only [ctrlPageAddr, List.getD_eq_getElem?_getD]
  congr 1
  by_cases h : i * cp / vp < out.length
  · rw [List.getElem?_append_left h]
  · rw [List.getElem?_append_right (by omega), List.getElem?_replicate,
      List.getElem?_eq_none (by omega)]
    split <;> rfl

/-- A handle has one address per controller page of its range, made from what the kernel copied
out; the range is a whole number of controller pages. -/
theorem nvmDmaInit_ok {P : Nat} {k k' : KState} {env : DmaEnv} {mapper : Mapper} {va : VaRange}
    {req : Request} {dma : NvmDma} (h : nvmDmaInit P k env mapper va req = (k', .ok dma)) :
    let r := k.mapIoctl P mapper.current mapper.pdev req
    r.err = none ∧ k' = r.k ∧ dma.ctrl = mapper.ctrlId ∧
      dma.ioaddrs = (List.range (u64 (va.pageSize * va.nPages) / mapper.ctrl.pageSize)).map
        (ctrlPageAddr mapper.ctrl.pageSize va.pageSize r.out) ∧
      mapper.ctrl.pageSize ∣ u64 (va.pageSize * va.nPages) := by
  simp only [nvmDmaInit] at h
  split at h
  · cases h
  split at h
  · cases h
  split at h
  · cases h
  rename_i halign
  split at h
  · cases h
  split at h
  · cases h
  split at h
  · cases h
  · rename_i he
    cases h
    simp only [Bool.not_eq_true', Bool.not_eq_false, VaRange.alignsWith, Bool.and_eq_true,
      decide_eq_true_eq] at halign
    refine ⟨he, rfl, rfl, ?_, Nat.dvd_of_mod_eq_zero halign.2⟩
    simp only [populateHandle]
    congr 1
    funext i
    exact ctrlPageAddr_fill _ _ _ _ _

/-- A byte's place in pages of size `vp`, counted over the pages of size `cp` that these are split
into. -/
theorem split_page {cp vp : Nat} (hcp : 0 < cp) (hdvd : cp ∣ vp) (i : Nat) :
    i / cp * cp / vp = i / vp ∧ i / cp * cp % vp + i % cp = i % vp := by
  obtain ⟨c, rfl⟩ := hdvd
  constructor
  · rw [Nat.mul_comm cp c, Nat.mul_div_mul_right _ _ hcp, Nat.mul_comm c cp, Nat.div_div_eq_div_mul]
  · have h1 : i / cp * cp % (cp * c) = cp * (i / cp % c) := by
      rw [Nat.mul_comm (i / cp), Nat.mul_mod_mul_left]
    rw [h1, Nat.mod_mul, Nat.add_comm]

/-- Splitting pages of size `vp` into controller pages keeps every byte's address. -/
theorem ctrlPageAddr_byte {cp vp n : Nat} (hcp : 0 < cp) (hvp : 0 < vp) (hdvd : cp ∣ vp)
    {addrs : List (BitVec 64)} {i : Nat} {a : BitVec 64}
    (h : ((List.range (vp * n / cp)).map (ctrlPageAddr cp vp addrs))[i / cp]? = some a) :
    i / vp < n ∧ a + BitVec.ofNat 64 (i % cp) =
      addrs.getD (i / vp) 0#64 + BitVec.ofNat 64 (i % vp) := by
  rw [List.getElem?_map] at h
  obtain ⟨y, hy, rfl⟩ := Option.map_eq_some_iff.mp h
  obtain ⟨hlt, hyi⟩ := List.getElem?_eq_some_iff.mp hy
  rw [List.getElem_range] at hyi
  subst hyi
  rw [List.length_range, Nat.lt_div_iff_mul_lt' (Dvd.dvd.mul_right hdvd _)] at hlt
  obtain ⟨hdiv, hmod⟩ := split_page hcp hdvd i
  refine ⟨?_, ?_⟩
  · rw [← hdiv, Nat.div_lt_iff_lt_mul hvp, Nat.mul_comm n, Nat.mul_comm (i / cp)]
    exact hlt
  · rw [ctrlPageAddr, hdiv, BitVec.add_assoc, ← BitVec.ofNat_add, hmod]

theorem nvmDmaMapRange_ok {P : Nat} {k : KState} {env : DmaEnv} {mapper : Mapper} {j : Nat}
    (hj : j ≤ 64) {vaddr size : Nat} {req : Nat → Request} {dma : NvmDma}
    (h : (nvmDmaMapRange P k env mapper (2 ^ j) vaddr size req).2 = .ok dma) :
    let n := nvmPageAlign size (2 ^ j) / 2 ^ j
    let r := k.mapIoctl P mapper.current mapper.pdev (req n)
    0 < n ∧ r.err = none ∧ (nvmDmaMapRange P k env mapper (2 ^ j) vaddr size req).1 = r.k ∧
      dma.ctrl = mapper.ctrlId ∧
      dma.ioaddrs = (List.range (2 ^ j * n / mapper.ctrl.pageSize)).map
        (ctrlPageAddr mapper.ctrl.pageSize (2 ^ j) r.out) := by
  unfold nvmDmaMapRange at h ⊢
  split at h
  · cases h
  · rename_i va hva
    obtain ⟨hvp, hvn, hpos, hlt⟩ := createMappingDescriptor_ok hj hva
    obtain ⟨herr, hk, hctrl, haddrs, -⟩ := nvmDmaInit_ok (Prod.ext rfl h)
    rw [hvp, u64_of_lt hlt] at haddrs
    rw [hvn] at hpos herr hk haddrs
    exact ⟨hpos, herr, by rw [hvn]; exact hk, hctrl, haddrs⟩

/-- A range that is mapped is a number of whole controller pages. -/
theorem nvmDmaMapRange_whole {P : Nat} {k : KState} {env : DmaEnv} {mapper : Mapper} {j : Nat}
    (hj : j ≤ 64) {vaddr size : Nat} {req : Nat → Request} {dma : NvmDma}
    (h : (nvmDmaMapRange P k env mapper (2 ^ j) vaddr size req).2 = .ok dma) :
    mapper.ctrl.pageSize ∣ 2 ^ j * (nvmPageAlign size (2 ^ j) / 2 ^ j) := by
  unfold nvmDmaMapRange at h
  split at h
  · cases h
  · rename_i va hva
    obtain ⟨hvp, hvn, -, hlt⟩ := createMappingDescriptor_ok hj hva
    obtain ⟨-, -, -, -, hwhole⟩ := nvmDmaInit_ok (Prod.ext rfl h)
    rwa [hvp, u64_of_lt hlt, hvn] at hwhole

/-- A handle belongs to the controller it was mapped through. -/
theorem nvmDmaMapRange_ctrl {P : Nat} {k : KState} {env : DmaEnv} {mapper : Mapper}
    {page vaddr size : Nat} {req : Nat → Request} {dma : NvmDma}
    (h : (nvmDmaMapRange P k env mapper page vaddr size req).2 = .ok dma) :
    dma.ctrl = mapper.ctrlId := by
  unfold nvmDmaMapRange at h
  split at h
  · cases h
  · exact (nvmDmaInit_ok (Prod.ext rfl h)).2.2.1

/-! ## GPU memory -/

/-- What stands behind `nvm_dma_map_device` at one moment: the kernel's page size and state, the
outcomes of allocations and copies, the NVIDIA driver and who maps. -/
structure GpuSide where
  P : Nat
  k : KState
  env : DmaEnv
  gpu : GpuEnv
  copyIn : Bool
  copyOut : Bool
  mapper : Mapper

def GpuSide.map (x : GpuSide) (devptr size : Nat) : Except Errno NvmDma :=
  (nvmDmaMapDevice x.P x.k x.env x.gpu x.copyIn x.copyOut x.mapper devptr size).2

/-- The driver maps all pages of a request and gives GPU page `g` the address `D g`, there is a
controller, and the controller's pages have `2^j` bytes. -/
structure GpuSide.Gives (x : GpuSide) (D : Nat → BitVec 64) (j : Nat) : Prop where
  dma : ∀ i, x.gpu.dmaMapPages i = .ok D
  pages : x.gpu.getPages = .ok
  ctrls : x.k.nCtrls ≠ 0
  page : x.mapper.ctrl.pageSize = 2 ^ j

/-- The DMA address of GPU virtual byte `v`. -/
def gpuAddr (D : Nat → BitVec 64) (v : Nat) : BitVec 64 :=
  D (v / GPU_PAGE_SIZE) + BitVec.ofNat 64 (v % GPU_PAGE_SIZE)

/-- A handle on GPU memory: it is large enough for its size, and byte `i` of it is GPU virtual byte
`i` after the start of the 64 KiB page that the pointer is in. -/
theorem GpuSide.Gives.map_ok {x : GpuSide} {D : Nat → BitVec 64} {j : Nat} (hx : x.Gives D j)
    (hj : j ≤ 16) {devptr size : Nat} (hv : devptr < 2 ^ 64) {dma : NvmDma}
    (h : x.map devptr size = .ok dma) :
    (size < 2 ^ 64 → 65535 + size < 2 ^ 64 ∧ size ≤ dma.ioaddrs.length * 2 ^ j) ∧
      ∀ i a, dma.ioaddrs[i / 2 ^ j]? = some a →
        a + BitVec.ofNat 64 (i % 2 ^ j) =
          gpuAddr D (devptr / GPU_PAGE_SIZE * GPU_PAGE_SIZE + i) := by
  have hG : GPU_PAGE_SIZE = 2 ^ 16 := rfl
  have hGpos : 0 < GPU_PAGE_SIZE := by decide
  have hp : 0 < 2 ^ j := Nat.two_pow_pos j
  have hdvd : 2 ^ j ∣ GPU_PAGE_SIZE := Nat.pow_dvd_pow 2 hj
  rw [GpuSide.map, nvmDmaMapDevice, hG] at h
  obtain ⟨hpos, herr, -, -, haddrs⟩ := nvmDmaMapRange_ok (by decide : 16 ≤ 64) h
  obtain ⟨m, hm, -, hout⟩ := KState.mapIoctl_device_ok herr
  rw [← hG] at hpos hm hout haddrs
  have hma := mapDeviceMemory_ok hx.dma hx.pages hx.ctrls hm
  have hbase : mask 64 devptr GPU_PAGE_SIZE / GPU_PAGE_SIZE = devptr / GPU_PAGE_SIZE := by
    rw [hG, and_mask (by decide) hv, Nat.mul_div_cancel _ (by decide)]
  rw [hbase] at hma
  rw [hout, hx.page, hma] at haddrs
  refine ⟨?_, ?_⟩
  · intro hsize
    have hlen : dma.ioaddrs.length * 2 ^ j =
        GPU_PAGE_SIZE * (nvmPageAlign size GPU_PAGE_SIZE / GPU_PAGE_SIZE) := by
      rw [haddrs, List.length_map, List.length_range]
      exact Nat.div_mul_cancel (Dvd.dvd.mul_right hdvd _)
    rw [hG] at hpos
    have hfits := nvmPageAlign_fits (by decide : 16 ≤ 64) hsize hpos.ne'
    obtain ⟨henough, -⟩ := nvmPageAlign_covers (by decide : 16 ≤ 64) hsize hpos.ne'
    rw [hlen, hG, Nat.mul_comm]
    exact ⟨by omega, henough⟩
  · intro i a ha
    rw [haddrs] at ha
    obtain ⟨hin, he⟩ := ctrlPageAddr_byte hp hGpos hdvd ha
    have hdiv : (devptr / GPU_PAGE_SIZE * GPU_PAGE_SIZE + i) / GPU_PAGE_SIZE =
        devptr / GPU_PAGE_SIZE + i / GPU_PAGE_SIZE := by
      rw [Nat.add_comm, Nat.add_mul_div_right _ _ hGpos, Nat.add_comm]
    rw [he, gpuAddr, hdiv, Nat.mul_add_mod_self_right]
    simp [List.getD_eq_getElem?_getD, hin]

/-! ## Host memory -/

/-- The number of pages that `nvm_dma_map_host` requests for `size` bytes. -/
def hostPages (page size : Nat) : Nat := nvmPageAlign (nvmPageAlign size page) page / page

/-- A handle on host memory has one address per page requested: those of the kernel's new mapping,
and zeros after them. -/
theorem nvmDmaMapHost_ok {j : Nat} (hj : j < 64) {k k' : KState} {env : DmaEnv} {hostEnv : HostEnv}
    {copyIn copyOut : Bool} {mapper : Mapper} (hpage : mapper.ctrl.pageSize = 2 ^ j)
    {vaddr size : Nat} {dma : NvmDma}
    (h : nvmDmaMapHost (2 ^ j) k env hostEnv copyIn copyOut mapper vaddr size = (k', .ok dma)) :
    ∃ m, mapUserspace (2 ^ j) hostEnv k.nextId mapper.current mapper.pdev vaddr
        (hostPages (2 ^ j) size) = .ok m ∧
      k'.hostList = k.hostList ++ [m] ∧
      dma.ioaddrs = (List.range (hostPages (2 ^ j) size)).map fun i => m.addrs.getD i 0#64 := by
  simp only [nvmDmaMapHost, hpage] at h
  split at h
  · cases h
  obtain ⟨-, herr, hk, -, haddrs⟩ := nvmDmaMapRange_ok (Nat.le_of_lt hj) (congrArg Prod.snd h)
  rw [h] at hk
  obtain ⟨m, hm, hlist, hout⟩ := KState.mapIoctl_host_ok herr
  have hp : 0 < 2 ^ j := Nat.two_pow_pos j
  rw [hout, hpage, Nat.mul_div_cancel_left _ hp] at haddrs
  rw [← hk] at hlist
  refine ⟨m, hm, hlist, haddrs.trans ?_⟩
  -- pages of the range and of the controller have the same size
  have hsame (i : Nat) : ctrlPageAddr (2 ^ j) (2 ^ j) m.addrs i = m.addrs.getD i 0#64 := by
    simp [ctrlPageAddr, Nat.mul_div_cancel _ hp]
  exact List.map_congr_left fun i _ => hsame i

/-- `nvm_dma_map_host` on a controller that `nvm_ctrl_init` has opened, for any pointer and size,
when `get_user_pages` pins `n` of the pages, at least one. If the call succeeds, every address in
the handle is the one that `dma_map_page` gave for the page that holds byte `i * page_size` of the
range, exactly when all the pages requested were pinned. -/
theorem map_host_exact (j : Nat) (hj : j < 64) (alloc : Bool) (cap : BitVec 64) (mapper : Mapper)
    (hctrl : nvmCtrlInit alloc (2 ^ j) cap = .ok mapper.ctrl) (k k' : KState) (env : DmaEnv)
    (hostEnv : HostEnv) (copyIn copyOut : Bool) (vaddr size : Nat) (hv : vaddr < 2 ^ 64)
    (n : Nat) (hpin : hostEnv.getUserPages = .ok n) (hn : 1 ≤ n) (hn' : n ≤ hostPages (2 ^ j) size)
    (dma : NvmDma)
    (hok : nvmDmaMapHost (2 ^ j) k env hostEnv copyIn copyOut mapper vaddr size = (k', .ok dma)) :
    ∃ m, k'.hostList = k.hostList ++ [m] ∧
      ((∀ i < dma.nIoaddrs, ∃ a, dma.ioaddrs[i]? = some a ∧
          m.Obtained ((vaddr + i * 2 ^ j) / 2 ^ j) a) ↔
        n = hostPages (2 ^ j) size) := by
  have hp : 0 < 2 ^ j := Nat.two_pow_pos j
  have hpage : mapper.ctrl.pageSize = 2 ^ j := by rw [(nvmCtrlInit_ok hctrl).2]
  obtain ⟨m, hm, hlist, hio⟩ := nvmDmaMapHost_ok hj hpage hok
  obtain ⟨hpages, haddrs⟩ := mapUserspace_ok hm hpin hn
  have hbase : mask 64 vaddr (2 ^ j) / 2 ^ j = vaddr / 2 ^ j := by
    rw [and_mask (Nat.le_of_lt hj) hv, Nat.mul_div_cancel _ hp]
  have hpg (i : Nat) : (vaddr + i * 2 ^ j) / 2 ^ j = vaddr / 2 ^ j + i := Nat.add_mul_div_right _ _ hp
  rw [hbase] at hpages haddrs
  have hlen : dma.nIoaddrs = hostPages (2 ^ j) size := by simp [NvmDma.nIoaddrs, hio]
  refine ⟨m, hlist, ?_, ?_⟩
  · -- the first page that was not pinned is in no mapping
    intro hall
    by_contra hne
    obtain ⟨a, -, x, hx, -⟩ := hall n (by omega)
    rw [hpg, hpages, List.getElem?_map] at hx
    obtain ⟨y, hy, he⟩ := Option.map_eq_some_iff.mp hx
    have := (List.mem_range.mp (List.mem_of_getElem? hy))
    omega
  · intro hall i hi
    have hin : i < n := by omega
    refine ⟨hostEnv.dmaMapPage (vaddr / 2 ^ j + i), ?_, i, ?_, ?_⟩
    · rw [hio, haddrs]
      simp [hin, ← hall]
    · rw [hpg, hpages]
      simp [hin]
    · rw [haddrs]
      simp [hin]

/-- A controller with 4 KiB pages, up to 1024 queue entries and a timeout of 500 ms. -/
def sampleCap : BitVec 64 := 0x010003ff#64

def sampleMapper : Mapper := ⟨⟨1, 1⟩, 0, ⟨4096, 0, 500, 1024⟩, 0⟩

/-- Two pages from address `0x10000` on are requested, `pinned` of them are pinned. -/
def mapTwoPages (pinned : Nat) : KState × Except Errno NvmDma :=
  nvmDmaMapHost (2 ^ 12) (.init 1) ⟨true, true, true, true, true⟩
    ⟨true, true, .ok pinned, fun page => BitVec.ofNat 64 (0x80000000 + page * 4096), fun _ => none⟩
    true true sampleMapper 0x10000 8192

theorem mapTwoPages_ok {pinned : Nat} (h : (mapTwoPages pinned).2.isOk = true) :
    ∃ dma, mapTwoPages pinned = ((mapTwoPages pinned).1, .ok dma) := by
  cases hr : (mapTwoPages pinned).2 with
  | error e => rw [hr] at h; cases h
  | ok dma => exact ⟨dma, Prod.ext rfl hr⟩

theorem map_host_exact_two_pages :
    ∃ k' dma m, mapTwoPages 2 = (k', .ok dma) ∧ k'.hostList = [m] ∧
      ∀ i < dma.nIoaddrs, ∃ a, dma.ioaddrs[i]? = some a ∧
        m.Obtained ((0x10000 + i * 2 ^ 12) / 2 ^ 12) a := by
  obtain ⟨dma, hok⟩ := mapTwoPages_ok (by decide +kernel : (mapTwoPages 2).2.isOk = true)
  obtain ⟨m, hm, hiff⟩ := map_host_exact 12 (by decide) true sampleCap sampleMapper rfl _ _ _ _ _ _
    0x10000 8192 (by decide) 2 rfl (by decide) (by decide +kernel) _ hok
  exact ⟨_, _, m, hok, hm, hiff.mpr (by decide +kernel)⟩

/-- One of two pages is pinned: the call succeeds, and the second address of the handle is 0. -/
theorem map_host_partial :
    ¬ ∀ (j : Nat), j < 64 → ∀ (alloc : Bool) (cap : BitVec 64) (mapper : Mapper),
      nvmCtrlInit alloc (2 ^ j) cap = .ok mapper.ctrl → ∀ (k k' : KState) (env : DmaEnv)
        (hostEnv : HostEnv) (copyIn copyOut : Bool) (vaddr size : Nat), vaddr < 2 ^ 64 →
        ∀ (n : Nat), hostEnv.getUserPages = .ok n → 1 ≤ n → n ≤ hostPages (2 ^ j) size →
        ∀ (dma : NvmDma),
          nvmDmaMapHost (2 ^ j) k env hostEnv copyIn copyOut mapper vaddr size = (k', .ok dma) →
          ∃ m, k'.hostList = k.hostList ++ [m] ∧
            ∀ i < dma.nIoaddrs, ∃ a, dma.ioaddrs[i]? = some a ∧
              m.Obtained ((vaddr + i * 2 ^ j) / 2 ^ j) a := by
  intro h
  obtain ⟨dma, hok⟩ := mapTwoPages_ok (by decide +kernel : (mapTwoPages 1).2.isOk = true)
  obtain ⟨m, hm, hall⟩ := h 12 (by decide) true sampleCap sampleMapper rfl _ _ _ _ _ _
    0x10000 8192 (by decide) 1 rfl (by decide) (by decide +kernel) _ hok
  have hlen : dma.nIoaddrs = 2 := by
    have : (mapTwoPages 1).2.toOption.map NvmDma.nIoaddrs = some 2 := by decide +kernel
    rw [hok] at this
    exact Option.some.inj this
  obtain ⟨a, ha, i, hp, -⟩ := hall 1 (by rw [hlen]; decide)
  have hpages : m.pages = [16] := by
    have : (mapTwoPages 1).1.hostList.map Map.pages = [[16]] := by decide +kernel
    rw [hm] at this
    exact List.singleton_inj.mp this
  rw [hpages] at hp
  have := List.mem_singleton.mp (List.mem_of_getElem? hp)
  exact absurd this (by decide)

end Nvm
end UGDS
