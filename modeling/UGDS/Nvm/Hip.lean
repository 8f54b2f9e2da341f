import UGDS.Drv.Failed
import UGDS.Drv.SgFlatten
import UGDS.Nvm.Dma

/-!
# UGDS.Nvm.Hip

The HIP path of `nvm_dma_map_device` (`linux_dma.cpp`) and its request to the kernel module
(`ioctl_map`, `linux_device.cpp`).

The size of a buffer is rounded twice on the way: `nvm_dma_map_device` rounds it to check it against
the allocation that the HIP runtime reports, and `create_mapping_descriptor` rounds it again to get
the number of pages; `ioctl_map` turns that number into bytes and the kernel turns the bytes into
pages. `P` is the page size on both sides, `HPS` in the library and `PAGE_SIZE` in the module.

* `hipChecks_ok`: what the checks say about the buffer and the allocation.
* `mapIoctl_dmabuf_out`: the kernel's address list has as many entries as were asked for.
* `hip_request_agrees`: the library and the kernel agree on every request that is made.
-/

namespace UGDS
namespace Nvm

open Lib Drv

/-- What `nvm_dma_map_device` meets: whether the pointer is device memory, base and size of its
allocation, the file descriptor and the offset of the exported dma-buf, the address of the list for
the bus addresses, and the kernel's side. -/
structure HipEnv where
  deviceMemory : Bool
  addressRange : Option (BitVec 64 × BitVec 64)
  exportDmabuf : Option (Int × BitVec 64)
  ioaddrs : Nat
  ioaddrs_ne : ioaddrs ≠ 0
  copyIn : Bool
  copyOut : Bool
  dmabuf : DmabufEnv

/-- The checks of `nvm_dma_map_device` up to `create_mapping_descriptor`: file descriptor and offset
of the dma-buf. -/
def hipChecks (P : Nat) (hip : HipEnv) (devptr size : BitVec 64) : Except Errno (Int × BitVec 64) :=
  if size.toNat = 0 then .error .EINVAL
  else if P = 0 then .error .EINVAL
  else if !hip.deviceMemory then .error Errno.EIO
  else
    match hip.addressRange with
    | none => .error Errno.EIO
    | some (base, allocSize) =>
      let offset := devptr - base
      if size.toNat > 2 ^ 64 - 1 - P then .error .EINVAL
      else
        let aligned := mask 64 (u64 (size.toNat + P - 1)) P
        if devptr.toNat < base.toNat ∨ offset.toNat > allocSize.toNat ∨
            aligned > allocSize.toNat - offset.toNat then .error Errno.EIO
        else if devptr.toNat % P ≠ 0 then .error .EINVAL
        else
          match hip.exportDmabuf with
          | none => .error Errno.EIO
          | some (fd, off) =>
            if fd < 0 then .error Errno.EIO
            else if off.toNat % P ≠ 0 then .error .EINVAL
            else .ok (fd, off)

/-- The request of `ioctl_map` for a range of type `MAP_TYPE_DMABUF`. -/
def hipDmabufRequest (hip : HipEnv) (devptr : BitVec 64) (fd : Int) (off : BitVec 64) (page nPages : Nat) :
    DmabufReq where
  gpuPtr := devptr.toNat
  fd := fd
  offset := off.toNat
  size := u64 (page * nPages)
  capacity := nPages
  ioaddrs := hip.ioaddrs
  gpuPtr_lt := devptr.isLt

/-- `nvm_dma_map_device`, the HIP path. -/
def nvmDmaMapDeviceHip (P : Nat) (k : KState) (env : DmaEnv) (hip : HipEnv) (mapper : Mapper)
    (devptr size : BitVec 64) : KState × Except Errno NvmDma :=
  match hipChecks P hip devptr size with
  | .error e => (k, .error e)
  | .ok (fd, off) =>
    nvmDmaMapRange P k env mapper P devptr.toNat size.toNat fun nPages =>
      .mapDmabuf hip.copyIn hip.copyOut (hipDmabufRequest hip devptr fd off P nPages) hip.dmabuf

/-- The range and the request with which `ioctl_map` is reached, if it is. -/
def hipRequest (P : Nat) (env : DmaEnv) (hip : HipEnv) (mapper : Mapper) (devptr size : BitVec 64) :
    Except Errno (VaRange × DmabufReq) :=
  match hipChecks P hip devptr size with
  | .error e => .error e
  | .ok (fd, off) =>
    match createMappingDescriptor env P devptr.toNat size.toNat with
    | .error e => .error e
    | .ok va =>
      if !env.ctrlRef then .error .ENOSPC
      else if !env.map then .error .ENOMEM
      else if !va.alignsWith mapper.ctrl then .error .EINVAL
      else if !env.container then .error .ENOMEM
      else if !env.addrList then .error .ENOMEM
      else .ok (va, hipDmabufRequest hip devptr fd off P va.nPages)

/-- `hipRequest` is `nvm_dma_map_device` up to the ioctl. -/
theorem nvmDmaMapDeviceHip_eq (P : Nat) (k : KState) (env : DmaEnv) (hip : HipEnv) (mapper : Mapper)
    (devptr size : BitVec 64) :
    nvmDmaMapDeviceHip P k env hip mapper devptr size =
      match hipRequest P env hip mapper devptr size with
      | .error e => (k, .error e)
      | .ok (va, req) =>
        let r := k.mapIoctl P mapper.current mapper.pdev
          (.mapDmabuf hip.copyIn hip.copyOut req hip.dmabuf)
        match r.err with
        | some e => (r.k, .error e)
        | none => (r.k, .ok (populateHandle va mapper.ctrl mapper.ctrlId
            (r.out ++ List.replicate (va.nPages - r.out.length) 0#64))) := by
  unfold nvmDmaMapDeviceHip hipRequest
  cases hipChecks P hip devptr size with
  | error e => rfl
  | ok x =>
    obtain ⟨fd, off⟩ := x
    dsimp only
    unfold nvmDmaMapRange
    cases hva : createMappingDescriptor env P devptr.toNat size.toNat with
    | error e => rfl
    | ok va =>
      dsimp only
      unfold nvmDmaInit
      split
      · rfl
      split
      · rfl
      split
      · rfl
      split
      · rfl
      split
      · rfl
      · rfl

/-! ## The library's side -/

section

variable {j : Nat} {hip : HipEnv} {devptr size : BitVec 64} {fd : Int} {off : BitVec 64}

/-- The rounded size is the number of bytes in the pages that hold the buffer. -/
theorem rounded {n : Nat} (hj : j ≤ 64) (h0 : n ≠ 0) (h : ¬ n > 2 ^ 64 - 1 - 2 ^ j) :
    ∃ pages, nvmPageAlign n (2 ^ j) = 2 ^ j * pages ∧ mask 64 (u64 (n + 2 ^ j - 1)) (2 ^ j) =
      2 ^ j * pages ∧ n ≤ 2 ^ j * pages ∧ 2 ^ j * pages < n + 2 ^ j ∧ 0 < pages := by
  have hP := Nat.two_pow_pos j
  have hsame : mask 64 (u64 (n + 2 ^ j - 1)) (2 ^ j) = nvmPageAlign n (2 ^ j) := by
    rw [nvmPageAlign, Nat.add_comm n]
  have hbounds : n ≤ nvmPageAlign n (2 ^ j) ∧ nvmPageAlign n (2 ^ j) < n + 2 ^ j :=
    alignUp_bounds hj (by omega)
  obtain ⟨pages, hpages⟩ : 2 ^ j ∣ nvmPageAlign n (2 ^ j) := dvd_alignUp hj n
  rw [hpages] at hbounds
  obtain ⟨hle, hlt⟩ := hbounds
  refine ⟨pages, hpages, hsame.trans hpages, hle, hlt, Nat.pos_of_ne_zero ?_⟩
  rintro rfl
  omega

/-- What the checks establish: the rounded buffer lies in the allocation that the runtime reports,
and pointer and offset are aligned. -/
theorem hipChecks_ok (hj : j ≤ 64) (h : hipChecks (2 ^ j) hip devptr size = .ok (fd, off)) :
    ∃ base allocSize pages, hip.addressRange = some (base, allocSize) ∧
      nvmPageAlign size.toNat (2 ^ j) = 2 ^ j * pages ∧ size.toNat ≤ 2 ^ j * pages ∧
      2 ^ j * pages < size.toNat + 2 ^ j ∧ 0 < pages ∧ base.toNat ≤ devptr.toNat ∧
      devptr.toNat + 2 ^ j * pages ≤ base.toNat + allocSize.toNat ∧
      devptr.toNat % 2 ^ j = 0 ∧ 0 ≤ fd ∧ off.toNat % 2 ^ j = 0 := by
  unfold hipChecks at h
  split at h
  · cases h
  rename_i hsize
  split at h
  · cases h
  split at h
  · cases h
  split at h
  · cases h
  rename_i base allocSize hrange
  dsimp only at h
  split at h
  · cases h
  rename_i hmax
  obtain ⟨pages, hal, hmask, hle, hlt, hpos⟩ := rounded hj hsize hmax
  rw [hmask] at h
  split at h
  · cases h
  rename_i hin
  split at h
  · cases h
  rename_i hptr
  split at h
  · cases h
  split at h
  · cases h
  rename_i hfd
  split at h
  · cases h
  rename_i hoff
  cases h
  -- the offset was computed before the pointer was compared with the base
  have hsub : (devptr - base).toNat = devptr.toNat - base.toNat := by
    rw [BitVec.toNat_sub_of_le]
    rw [BitVec.le_def]
    omega
  rw [hsub] at hin
  exact ⟨base, allocSize, pages, hrange, hal, hle, hlt, hpos, by omega, by omega, by omega, by omega,
    by omega⟩

/-- The request that reaches the ioctl, and the range it was made for. -/
theorem hipRequest_ok {env : DmaEnv} {mapper : Mapper} {va : VaRange} {req : DmabufReq}
    (h : hipRequest (2 ^ j) env hip mapper devptr size = .ok (va, req)) :
    ∃ fd off, hipChecks (2 ^ j) hip devptr size = .ok (fd, off) ∧
      createMappingDescriptor env (2 ^ j) devptr.toNat size.toNat = .ok va ∧
      req = hipDmabufRequest hip devptr fd off (2 ^ j) va.nPages := by
  unfold hipRequest at h
  split at h
  · cases h
  rename_i fd off hchecks
  split at h
  · cases h
  rename_i va' hva
  split at h
  · cases h
  split at h
  · cases h
  split at h
  · cases h
  split at h
  · cases h
  split at h
  · cases h
  · cases h
    exact ⟨fd, off, hchecks, hva, rfl⟩

end

/-! ## The kernel's side -/

theorem mapDmabuf_length {P : Nat} (hP : 0 < P) {env : DmabufEnv} {id : Nat} {current : Task}
    {pdev gpuPtr offset nPages capacity : Nat} {m : Map}
    (h : mapDmabuf P env id current pdev gpuPtr offset nPages capacity = .ok m) :
    m.addrs.length = nPages := by
  obtain ⟨sgt, addrs, hflat, rfl⟩ := mapDmabuf_made h
  exact (sgFlattenToAddrs_ok hP hflat).1

theorem insertDmabuf_out {k : KState} {m : Map} {capacity : Nat} {invalid copyOut : Bool}
    (h : (k.insertDmabuf m capacity invalid copyOut).err = none) :
    (k.insertDmabuf m capacity invalid copyOut).out = m.addrs := by
  revert h
  simp only [KState.insertDmabuf]
  split
  · intro h
    cases h
  split
  · intro h
    cases h
  split
  · intro _
    rfl
  · intro h
    cases h

/-- A dma-buf request that succeeds copies one address for each page of its size to the caller. -/
theorem mapIoctl_dmabuf_out {P : Nat} (hP : 0 < P) {k : KState} {current : Task} {pdev : Nat}
    {copyIn copyOut : Bool} {req : DmabufReq} {env : DmabufEnv}
    (h : (k.mapIoctl P current pdev (.mapDmabuf copyIn copyOut req env)).err = none) :
    (k.mapIoctl P current pdev (.mapDmabuf copyIn copyOut req env)).out.length = req.size / P := by
  cases copyIn with
  | false => cases h
  | true =>
    by_cases hrej : req.Rejected P
    · rw [mapIoctl_dmabuf_rejected hrej] at h
      cases h
    · rw [mapIoctl_dmabuf_accepted hrej] at h ⊢
      split at h
      · cases h
      · rename_i m hm
        rw [insertDmabuf_out h]
        exact mapDmabuf_length hP hm

/-! ## Both sides -/

/-- With pages of one size on both sides every address is used as it is. -/
theorem populateHandle_same {va : VaRange} {ctrl : NvmCtrl} {ctrlId : Nat} {out : List (BitVec 64)}
    (hpage : va.pageSize = ctrl.pageSize) (hpos : 0 < ctrl.pageSize)
    (hlt : ctrl.pageSize * va.nPages < 2 ^ 64) (hlen : out.length = va.nPages) :
    (populateHandle va ctrl ctrlId out).ioaddrs = out := by
  have hn : u64 (ctrl.pageSize * va.nPages) / ctrl.pageSize = va.nPages := by
    rw [u64_of_lt hlt, Nat.mul_div_cancel_left _ hpos]
  simp only [populateHandle, hpage, hn]
  refine List.ext_getElem (by simp [hlen]) ?_
  intro i h1 h2
  simp only [List.getElem_map, List.getElem_range, ctrlPageAddr, Nat.mul_div_cancel _ hpos,
    Nat.mul_mod_left, List.getD_eq_getElem?_getD, List.getElem?_eq_getElem h2, Option.getD_some]
  simp

/-- For every device pointer, size and reported allocation with which `nvm_dma_map_device` reaches
the ioctl, on a controller of this host: the buffer, rounded to pages, lies inside the allocation;
the request passes the checks of the kernel module; both sides count the same pages; and on success
the kernel writes one address for each page, and the handle has exactly these addresses. -/
theorem hip_request_agrees (j : Nat) (hj : j ≤ 64) {alloc : Bool} {cap : BitVec 64}
    (mapper : Mapper) (hctrl : nvmCtrlInit alloc (2 ^ j) cap = .ok mapper.ctrl) (k : KState)
    (env : DmaEnv) (hip : HipEnv) (devptr size : BitVec 64) (hptr : devptr ≠ 0) {va : VaRange} {req : DmabufReq}
    (h : hipRequest (2 ^ j) env hip mapper devptr size = .ok (va, req)) :
    (∃ base allocSize, hip.addressRange = some (base, allocSize) ∧ base.toNat ≤ devptr.toNat ∧
      devptr.toNat + 2 ^ j * va.nPages ≤ base.toNat + allocSize.toNat) ∧
    (size.toNat ≤ 2 ^ j * va.nPages ∧ 2 ^ j * va.nPages < size.toNat + 2 ^ j ∧
      2 ^ j * va.nPages < 2 ^ 64) ∧
    ¬ req.Rejected (2 ^ j) ∧ req.size / 2 ^ j = va.nPages ∧ req.capacity = va.nPages ∧
    ∀ dma, (nvmDmaMapDeviceHip (2 ^ j) k env hip mapper devptr size).2 = .ok dma →
      let r := k.mapIoctl (2 ^ j) mapper.current mapper.pdev
        (.mapDmabuf hip.copyIn hip.copyOut req hip.dmabuf)
      r.out.length = va.nPages ∧ dma.ioaddrs = r.out := by
  have hP := Nat.two_pow_pos j
  obtain ⟨fd, off, hchecks, hva, rfl⟩ := hipRequest_ok h
  obtain ⟨base, allocSize, pages, hrange, hal, hle, hround, hpos, hbase, hend, hdev, hfd, hoff⟩ :=
    hipChecks_ok hj hchecks
  obtain ⟨hvp, hvn, hvpos, hvlt⟩ := createMappingDescriptor_ok hj hva
  have hpages : va.nPages = pages := by rw [hvn, hal, Nat.mul_div_cancel_left _ hP]
  have hne : devptr.toNat ≠ 0 := by
    intro hz
    exact hptr (BitVec.eq_of_toNat_eq hz)
  have hsize : (hipDmabufRequest hip devptr fd off (2 ^ j) va.nPages).size = 2 ^ j * va.nPages :=
    u64_of_lt hvlt
  have hkernel : (hipDmabufRequest hip devptr fd off (2 ^ j) va.nPages).size / 2 ^ j = va.nPages := by
    rw [hsize, Nat.mul_div_cancel_left _ hP]
  refine ⟨⟨base, allocSize, hrange, hbase, hpages ▸ hend⟩, ⟨hpages ▸ hle, hpages ▸ hround, hvlt⟩, ?_,
    hkernel, rfl, ?_⟩
  · unfold DmabufReq.Rejected
    rw [hsize]
    have hmul : 2 ^ j * va.nPages ≠ 0 := Nat.mul_ne_zero (by omega) (by omega)
    have hmod : 2 ^ j * va.nPages % 2 ^ j = 0 := Nat.mul_mod_right _ _
    have hio := hip.ioaddrs_ne
    simp only [hipDmabufRequest]
    omega
  · intro dma hdma
    rw [nvmDmaMapDeviceHip_eq, h] at hdma
    dsimp only at hdma ⊢
    split at hdma
    · cases hdma
    · rename_i herr
      have hout := mapIoctl_dmabuf_out hP herr
      rw [hkernel] at hout
      have hpage : mapper.ctrl.pageSize = 2 ^ j := by
        rw [(nvmCtrlInit_ok hctrl).2]
      cases hdma
      refine ⟨hout, ?_⟩
      rw [hout, Nat.sub_self, List.replicate_zero, List.append_nil]
      exact populateHandle_same (hvp.trans hpage.symm) (hpage ▸ hP) (hpage ▸ hvlt) hout

/-- 5000 bytes in the second page of an allocation of 32 pages. -/
def HipEnv.sample : HipEnv :=
  ⟨true, some (0x10000, 0x20000), some (3, 0x1000), 0x7000, by decide, true, true,
    ⟨true, true, none, none, none, .ok [(0x80000000#64, 0x20000)], false⟩⟩

theorem hip_request_agrees_two_pages :
    ∃ ctrl va req dma, nvmCtrlInit true (2 ^ 12) 0 = .ok ctrl ∧
      hipRequest (2 ^ 12) ⟨true, true, true, true, true⟩ .sample ⟨⟨1, 1⟩, 0, ctrl, 0⟩ 0x11000 5000 =
        .ok (va, req) ∧ ¬ req.Rejected (2 ^ 12) ∧
      (nvmDmaMapDeviceHip (2 ^ 12) (.init 1) ⟨true, true, true, true, true⟩ .sample
        ⟨⟨1, 1⟩, 0, ctrl, 0⟩ 0x11000 5000).2 = .ok dma ∧ va.nPages = 2 ∧ dma.ioaddrs.length = 2 := by
  have hctrl : nvmCtrlInit true (2 ^ 12) 0 = .ok ⟨4096, 0, 0, 1⟩ := by rfl
  have hreq := hip_request_agrees 12 (by decide) ⟨⟨1, 1⟩, 0, ⟨4096, 0, 0, 1⟩, 0⟩ hctrl (.init 1)
    ⟨true, true, true, true, true⟩ .sample 0x11000 5000 (by decide) rfl
  refine ⟨_, _, _, _, hctrl, rfl, hreq.2.2.1, rfl, rfl, ?_⟩
  obtain ⟨hlen, haddrs⟩ := hreq.2.2.2.2.2 _ rfl
  rw [haddrs, hlen]
  rfl

end Nvm
end UGDS
