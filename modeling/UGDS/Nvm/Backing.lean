import Mathlib.Data.Multiset.AddSub
import Mathlib.Data.Multiset.Filter
import Mathlib.Data.Multiset.MapFold
import UGDS.Lib.Keys
import UGDS.Nvm.Dma

/-!
# UGDS.Nvm.Backing

The handles of libnvm and the mappings of the kernel module behind them. The library knows a mapping
by its pointer only, and asks the module to release it by that pointer; the module looks for a mapping
of the calling thread that begins in the same page.

* `Backs`: the mapping of a handle, with the handle's addresses.
* `Holds`: the module has the mappings of given handles, one each, and no others; no two of the
  handles begin in one page.
* `Holds.map_host`, `Holds.map_device`: mapping adds a handle, as long as its page is not taken.
* `Holds.unmap_host`, `Holds.unmap_device`: unmapping takes away the mapping of that handle.
-/

namespace UGDS
namespace Nvm

open Lib Drv

/-- The mapping `m`, made by thread `c` in pages of `page` bytes, is the one behind the handle. -/
structure Backs (c : Task) (page : Nat) (m : Map) (dma : NvmDma) : Prop where
  owner : m.owner = c
  pageSize : m.pageSize = page
  start : m.vaddr = mask 64 dma.vaddr page
  addrs : ∃ n, dma.ioaddrs = (List.range n).map (ctrlPageAddr dma.pageSize page m.addrs)

/-- The page that a handle begins in. -/
def NvmDma.pageIn (page : Nat) (dma : NvmDma) : Nat := mask 64 dma.vaddr page

/-- A pointer to host memory whose page no handle begins in. -/
def ClearHost (P : Nat) (host device : Multiset NvmDma) (vaddr : Nat) : Prop :=
  ∀ d ∈ host + device, d.pageIn P ≠ mask 64 vaddr P

/-- The same for a pointer to GPU memory, whose pages are larger. -/
def ClearDevice (P : Nat) (host device : Multiset NvmDma) (vaddr : Nat) : Prop :=
  (∀ d ∈ host, d.pageIn P ≠ mask 64 vaddr P) ∧
    ∀ d ∈ device, d.pageIn GPU_PAGE_SIZE ≠ mask 64 vaddr GPU_PAGE_SIZE

/-- The module has the mappings behind the handles `host` and `device`, all made by thread `c`, and
no others. -/
structure Holds (P : Nat) (c : Task) (k : KState) (host device : Multiset NvmDma) : Prop where
  inv : k.Inv
  hostMaps : Multiset.Rel (Backs c P) k.hostList host
  deviceMaps : Multiset.Rel (Backs c GPU_PAGE_SIZE) k.deviceList device
  hostApart : (host.map (NvmDma.pageIn P)).Nodup
  deviceApart : (device.map (NvmDma.pageIn GPU_PAGE_SIZE)).Nodup
  apart : ∀ d ∈ device, ∀ h ∈ host, h.pageIn P ≠ d.pageIn P

theorem Backs.matches_iff {c : Task} {page : Nat} {m : Map} {dma : NvmDma} (h : Backs c page m dma)
    (hp : 0 < page) (v : Nat) : Map.matchesAddr c v m = true ↔ dma.pageIn page = mask 64 v page := by
  simp [Map.matchesAddr, h.owner, h.pageSize, h.start, hp, NvmDma.pageIn]

/-! ## Unmapping -/

/-- The only mapping of a list that matches is the one that is found. -/
theorem mapFind_only {l : List Map} {rest : Multiset Map} {m : Map} {c : Task} {v : Nat}
    (hl : (l : Multiset Map) = m ::ₘ rest) (hm : Map.matchesAddr c v m = true)
    (hrest : ∀ x ∈ rest, Map.matchesAddr c v x = false) : mapFind l c v = some m := by
  have hmem (x : Map) : x ∈ l ↔ x = m ∨ x ∈ rest := by
    rw [← Multiset.mem_coe, hl, Multiset.mem_cons]
  cases hf : l.find? (Map.matchesAddr c v) with
  | none =>
    rw [List.find?_eq_none] at hf
    exact absurd hm (hf m ((hmem m).mpr (.inl rfl)))
  | some x =>
    have hx := List.find?_some hf
    rcases (hmem x).mp (List.mem_of_find?_eq_some hf) with rfl | hin
    · exact hf
    · rw [hrest x hin] at hx
      cases hx

/-- Taking out a node takes out one mapping. -/
theorem listRemove_coe {l : List Map} {rest : Multiset Map} {m : Map}
    (hl : (l : Multiset Map) = m ::ₘ rest) (hnd : (l.map Map.id).Nodup) :
    (listRemove l m : Multiset Map) = rest := by
  have hm : m ∈ l := by
    rw [← Multiset.mem_coe, hl]
    exact Multiset.mem_cons_self m rest
  have hperm := Multiset.coe_eq_coe.mpr (filter_ne_perm hnd hm)
  rw [hl, ← Multiset.cons_coe] at hperm
  exact ((Multiset.cons_inj_right m).mp hperm).symm

section Unmap

variable {P : Nat} {c : Task} {k : KState} {host device : Multiset NvmDma} {d : NvmDma}

/-- No mapping behind one of `ds` is found by a pointer into another page. -/
theorem not_matches {page : Nat} {l : Multiset Map} {ds : Multiset NvmDma} {v : Nat} (hp : 0 < page)
    (hrel : Multiset.Rel (Backs c page) l ds) (hne : ∀ x ∈ ds, x.pageIn page ≠ mask 64 v page) :
    ∀ m ∈ l, Map.matchesAddr c v m = false := by
  intro m hm
  obtain ⟨x, hx, hb⟩ := Multiset.exists_mem_of_rel_of_mem hrel hm
  rw [Bool.eq_false_iff, Ne, hb.matches_iff hp]
  exact hne x hx

theorem nodup_cons_page {page : Nat} {ds : Multiset NvmDma}
    (h : ((d ::ₘ ds).map (NvmDma.pageIn page)).Nodup) :
    (∀ x ∈ ds, x.pageIn page ≠ d.pageIn page) ∧ (ds.map (NvmDma.pageIn page)).Nodup := by
  rw [Multiset.map_cons, Multiset.nodup_cons] at h
  exact ⟨fun x hx he => h.1 (he ▸ Multiset.mem_map_of_mem _ hx), h.2⟩

theorem Holds.unmap_host (hP : 0 < P) (h : Holds P c k (d ::ₘ host) device) :
    Holds P c (k.unmap c d.vaddr).k host device := by
  obtain ⟨m, rest, hb, hrest, hl⟩ := Multiset.rel_cons_right.mp h.hostMaps
  obtain ⟨hne, hnd⟩ := nodup_cons_page h.hostApart
  have hfind : mapFind k.hostList c d.vaddr = some m :=
    mapFind_only hl ((hb.matches_iff hP _).mpr rfl) (not_matches hP hrest hne)
  have hids : (k.hostList.map Map.id).Nodup := by
    have := h.inv.nodup
    rw [KState.all, List.map_append] at this
    exact this.of_append_left
  obtain ⟨hsub, hnext⟩ := KState.unmap_sublist k c d.vaddr
  refine ⟨h.inv.sub hsub hnext.ge, ?_, ?_, hnd, h.deviceApart,
    fun x hx y hy => h.apart x hx y (Multiset.mem_cons_of_mem hy)⟩
  · simp only [KState.unmap, hfind]
    rw [listRemove_coe hl hids]
    exact hrest
  · simp only [KState.unmap, hfind]
    exact h.deviceMaps

theorem Holds.unmap_device (hP : 0 < P) (h : Holds P c k host (d ::ₘ device)) :
    Holds P c (k.unmap c d.vaddr).k host device := by
  have hG : 0 < GPU_PAGE_SIZE := Nat.two_pow_pos 16
  obtain ⟨m, rest, hb, hrest, hl⟩ := Multiset.rel_cons_right.mp h.deviceMaps
  obtain ⟨hne, hnd⟩ := nodup_cons_page h.deviceApart
  have hhost : mapFind k.hostList c d.vaddr = none := by
    have hnot := not_matches hP h.hostMaps (h.apart d (Multiset.mem_cons_self d device))
    exact List.find?_eq_none.mpr fun x hx => by simp [hnot x hx]
  have hfind : mapFind k.deviceList c d.vaddr = some m :=
    mapFind_only hl ((hb.matches_iff hG _).mpr rfl) (not_matches hG hrest hne)
  have hids : (k.deviceList.map Map.id).Nodup := by
    have := h.inv.nodup
    rw [KState.all, List.map_append] at this
    exact this.of_append_right
  obtain ⟨hsub, hnext⟩ := KState.unmap_sublist k c d.vaddr
  refine ⟨h.inv.sub hsub hnext.ge, ?_, ?_, h.hostApart, hnd,
    fun x hx => h.apart x (Multiset.mem_cons_of_mem hx)⟩
  · simp only [KState.unmap, hhost, hfind]
    exact h.hostMaps
  · simp only [KState.unmap, hhost, hfind]
    rw [listRemove_coe hl hids]
    exact hrest

end Unmap

/-! ## Mapping -/

section Map

variable {j : Nat} {c : Task} {k k' : KState} {host device : Multiset NvmDma} {env : DmaEnv}
  {mapper : Mapper} {vaddr size : Nat}

/-- A range that is mapped, with the request that was made for it. -/
theorem nvmDmaMapRange_made {P i : Nat} (hi : i ≤ 64) {req : Nat → Request} {dma : NvmDma}
    (h : nvmDmaMapRange P k env mapper (2 ^ i) vaddr size req = (k', .ok dma)) :
    ∃ n, (k.mapIoctl P mapper.current mapper.pdev (req n)).err = none ∧
      k' = (k.mapIoctl P mapper.current mapper.pdev (req n)).k ∧ dma.vaddr = vaddr ∧
      ∃ n', dma.ioaddrs = (List.range n').map (ctrlPageAddr dma.pageSize (2 ^ i)
        (k.mapIoctl P mapper.current mapper.pdev (req n)).out) := by
  unfold nvmDmaMapRange at h
  split at h
  · cases h
  · rename_i va hva
    have hrange : va.vaddr = vaddr ∧ va.pageSize = 2 ^ i := by
      refine ⟨?_, (createMappingDescriptor_ok hi hva).1⟩
      simp only [createMappingDescriptor] at hva
      split at hva
      · cases hva
      split at hva
      · cases hva
      · cases hva
        rfl
    have hdma : dma.vaddr = va.vaddr ∧ dma.pageSize = mapper.ctrl.pageSize := by
      unfold nvmDmaInit at h
      split at h
      · cases h
      split at h
      · cases h
      split at h
      · cases h
      split at h
      · cases h
      split at h
      · cases h
      simp only at h
      split at h
      · cases h
      · cases h
        exact ⟨rfl, rfl⟩
    obtain ⟨herr, hk, -, haddrs, -⟩ := nvmDmaInit_ok h
    rw [hrange.2, ← hdma.2] at haddrs
    exact ⟨_, herr, hk, hdma.1.trans hrange.1, _, haddrs⟩

/-- A range that is not mapped: the kernel was not asked, or it refused. -/
theorem nvmDmaMapRange_refused {P page : Nat} {req : Nat → Request} {e : Errno}
    (h : nvmDmaMapRange P k env mapper page vaddr size req = (k', .error e)) :
    k' = k ∨ ∃ n, (k.mapIoctl P mapper.current mapper.pdev (req n)).err.isSome ∧
      k' = (k.mapIoctl P mapper.current mapper.pdev (req n)).k := by
  unfold nvmDmaMapRange at h
  split at h
  · cases h
    exact .inl rfl
  · rename_i va hva
    unfold nvmDmaInit at h
    split at h
    · cases h
      exact .inl rfl
    split at h
    · cases h
      exact .inl rfl
    split at h
    · cases h
      exact .inl rfl
    split at h
    · cases h
      exact .inl rfl
    split at h
    · cases h
      exact .inl rfl
    simp only at h
    split at h
    · rename_i herr
      cases h
      exact .inr ⟨va.nPages, by simp [herr], rfl⟩
    · cases h

/-- When the addresses can be copied out, a request that fails changes nothing. -/
theorem mapIoctl_host_refused {P pdev n : Nat} {copyIn : Bool} {hostEnv : HostEnv}
    (h : (k.mapIoctl P c pdev (.mapHost copyIn true vaddr n hostEnv)).err.isSome) :
    (k.mapIoctl P c pdev (.mapHost copyIn true vaddr n hostEnv)).k = k := by
  revert h
  simp only [KState.mapIoctl]
  split
  · exact fun _ => rfl
  split
  · exact fun _ => rfl
  · intro h
    cases h

theorem mapIoctl_device_refused {P pdev n : Nat} {copyIn : Bool} {gpuEnv : GpuEnv}
    (h : (k.mapIoctl P c pdev (.mapDevice copyIn true vaddr n gpuEnv)).err.isSome) :
    (k.mapIoctl P c pdev (.mapDevice copyIn true vaddr n gpuEnv)).k = k := by
  revert h
  simp only [KState.mapIoctl]
  split
  · exact fun _ => rfl
  split
  · exact fun _ => rfl
  · intro h
    cases h

theorem Holds.map_inv (hj : j ≤ 64) (h : Holds (2 ^ j) c k host device) (current : Task) (pdev : Nat)
    (req : Request) : (k.mapIoctl (2 ^ j) current pdev req).k.Inv :=
  KState.step_inv hj h.inv (c := ⟨current, pdev, req⟩) rfl

theorem Holds.map_host (hj : j ≤ 64) (h : Holds (2 ^ j) c k host device) (hc : mapper.current = c)
    (hpage : mapper.ctrl.pageSize = 2 ^ j) {hostEnv : HostEnv} {copyIn copyOut : Bool} {dma : NvmDma}
    (hclear : ClearHost (2 ^ j) host device vaddr)
    (hmap : nvmDmaMapHost (2 ^ j) k env hostEnv copyIn copyOut mapper vaddr size = (k', .ok dma)) :
    dma.vaddr = vaddr ∧ Holds (2 ^ j) c k' (dma ::ₘ host) device := by
  simp only [nvmDmaMapHost, hpage] at hmap
  split at hmap
  · cases hmap
  obtain ⟨n, herr, rfl, hv, n', haddrs⟩ := nvmDmaMapRange_made hj hmap
  obtain ⟨m, hm, hlist, hout⟩ := KState.mapIoctl_host_ok herr
  have hdev : (k.mapIoctl (2 ^ j) mapper.current mapper.pdev
      (.mapHost copyIn copyOut vaddr n hostEnv)).k.deviceList = k.deviceList := by
    simp only [KState.mapIoctl]
    split
    · rfl
    split
    · rfl
    · simp only [KState.insertHost]
      split <;> rfl
  have hb : Backs c (2 ^ j) m dma := by
    rw [hout] at haddrs
    obtain ⟨_, _, rfl, -, ⟨-, rfl⟩ | ⟨-, rfl⟩⟩ := mapUserspace_made hm
    · exact ⟨hc, rfl, by rw [hv]; rfl, n', haddrs⟩
    · exact ⟨hc, rfl, by rw [hv]; rfl, n', haddrs⟩
  have hpg : dma.pageIn (2 ^ j) = mask 64 vaddr (2 ^ j) := by rw [NvmDma.pageIn, hv]
  refine ⟨hv, h.map_inv hj _ _ _, ?_, ?_, ?_, h.deviceApart, ?_⟩
  · rw [hlist, ← Multiset.coe_add, Multiset.coe_singleton, Multiset.add_comm,
      Multiset.singleton_add]
    exact .cons hb h.hostMaps
  · rw [hdev]
    exact h.deviceMaps
  · rw [Multiset.map_cons, Multiset.nodup_cons, hpg]
    refine ⟨fun hmem => ?_, h.hostApart⟩
    obtain ⟨x, hx, he⟩ := Multiset.mem_map.mp hmem
    exact hclear x (Multiset.mem_add.mpr (.inl hx)) he
  · intro x hx y hy
    rcases Multiset.mem_cons.mp hy with rfl | hy
    · rw [hpg]
      exact (hclear x (Multiset.mem_add.mpr (.inr hx))).symm
    · exact h.apart x hx y hy

theorem Holds.map_device (hj : j ≤ 64) (h : Holds (2 ^ j) c k host device) (hc : mapper.current = c)
    {gpuEnv : GpuEnv} {copyIn copyOut : Bool} {dma : NvmDma}
    (hclear : ClearDevice (2 ^ j) host device vaddr)
    (hmap : nvmDmaMapDevice (2 ^ j) k env gpuEnv copyIn copyOut mapper vaddr size =
      (k', .ok dma)) :
    dma.vaddr = vaddr ∧ Holds (2 ^ j) c k' host (dma ::ₘ device) := by
  obtain ⟨n, herr, rfl, hv, n', haddrs⟩ :=
    nvmDmaMapRange_made (by decide : 16 ≤ 64) (show nvmDmaMapRange _ _ _ _ (2 ^ 16) _ _ _ = _ from hmap)
  obtain ⟨m, hm, hlist, hout⟩ := KState.mapIoctl_device_ok herr
  have hhost : (k.mapIoctl (2 ^ j) mapper.current mapper.pdev
      (.mapDevice copyIn copyOut vaddr n gpuEnv)).k.hostList = k.hostList := by
    simp only [KState.mapIoctl]
    split
    · rfl
    split
    · rfl
    · simp only [KState.insertDevice]
      split <;> rfl
  have hb : Backs c GPU_PAGE_SIZE m dma := by
    rw [hout] at haddrs
    obtain ⟨_, _, -, -, rfl⟩ := mapDeviceMemory_made hm
    exact ⟨hc, rfl, by rw [hv]; rfl, n', haddrs⟩
  have hpg (page : Nat) : dma.pageIn page = mask 64 vaddr page := by rw [NvmDma.pageIn, hv]
  refine ⟨hv, h.map_inv hj _ _ _, ?_, ?_, h.hostApart, ?_, ?_⟩
  · rw [hhost]
    exact h.hostMaps
  · rw [hlist, ← Multiset.coe_add, Multiset.coe_singleton, Multiset.add_comm,
      Multiset.singleton_add]
    exact .cons hb h.deviceMaps
  · rw [Multiset.map_cons, Multiset.nodup_cons, hpg]
    refine ⟨fun hmem => ?_, h.deviceApart⟩
    obtain ⟨x, hx, he⟩ := Multiset.mem_map.mp hmem
    exact hclear.2 x hx he
  · intro x hx y hy
    rcases Multiset.mem_cons.mp hx with rfl | hx
    · rw [hpg]
      exact hclear.1 y hy
    · exact h.apart x hx y hy

theorem nvmDmaMapHost_refused (hpage : mapper.ctrl.pageSize = 2 ^ j) {hostEnv : HostEnv}
    {copyIn : Bool} {e : Errno}
    (h : nvmDmaMapHost (2 ^ j) k env hostEnv copyIn true mapper vaddr size = (k', .error e)) :
    k' = k := by
  simp only [nvmDmaMapHost, hpage] at h
  split at h
  · cases h
    rfl
  · obtain rfl | ⟨n, herr, rfl⟩ := nvmDmaMapRange_refused h
    · rfl
    · exact mapIoctl_host_refused herr

theorem nvmDmaMapDevice_refused {P : Nat} {gpuEnv : GpuEnv} {copyIn : Bool} {e : Errno}
    (h : nvmDmaMapDevice P k env gpuEnv copyIn true mapper vaddr size = (k', .error e)) :
    k' = k := by
  obtain rfl | ⟨n, herr, rfl⟩ := nvmDmaMapRange_refused h
  · rfl
  · exact mapIoctl_device_refused herr

end Map

end Nvm
end UGDS
