import UGDS.Lib.Mask
import UGDS.Nvm.Types

/-!
# UGDS.Drv.Map

The kernel module's mappings (`drv/map.c`) and its ioctl entry point (`map_ioctl`, `drv/pci.c`).

What the rest of the kernel answers is an argument of each request: whether allocations succeed,
how many pages `get_user_pages` pins, what `dma_map_page` and the NVIDIA and dma-buf calls return,
whether user memory can be copied. `PAGE_SIZE` is the parameter `P`.

A `struct map` is identified by `id`, which stands for its address; `reqAddr` remembers the pointer
the request was made for. Neither is read by the modelled functions, except that `list_remove`
unlinks the node at its address. An error is an `Errno`, the module returns it negated.
-/

namespace UGDS
namespace Drv

open Lib

/-- `current`: a thread of a process. -/
structure Task where
  proc : Nat
  tid : Nat
  deriving DecidableEq, Repr

/-- The `release` callbacks. -/
inductive Release where
  | userPages
  | gpuMemory
  | dmabufMemory
  deriving DecidableEq, Repr

/-- `struct map`. `addrs` are the first `n_addrs` entries of its array. `pages` is the array of
pinned pages that `data` points to for host memory, each page given by its virtual page number. -/
structure Map where
  id : Nat
  owner : Task
  vaddr : Nat
  pdev : Nat
  pageSize : Nat
  addrs : List (BitVec 64)
  pages : List Nat
  release : Option Release
  reqAddr : Nat
  deriving DecidableEq, Repr

def GPU_PAGE_SIZE : Nat := 2 ^ 16

/-- `create_descriptor`, once its allocation has succeeded. -/
def createDescriptor (id : Nat) (current : Task) (pdev vaddr nPages reqAddr : Nat) : Map where
  id := id
  owner := current
  vaddr := vaddr
  pdev := pdev
  pageSize := 0
  addrs := List.replicate nPages 0#64
  pages := []
  release := none
  reqAddr := reqAddr

/-! ## Host memory -/

/-- What the kernel answers to a host mapping: the two allocations, `get_user_pages`, and for each
virtual page the address `dma_map_page` gives the page that holds it and `dma_mapping_error`'s
verdict on it. -/
structure HostEnv where
  descriptor : Bool
  pageArray : Bool
  getUserPages : Except Errno Nat
  dmaMapPage : Nat → BitVec 64
  dmaMappingError : Nat → Option Errno

/-- The mapping loop of `map_user_pages` over `n` pages from virtual page `page` on. It stops at
the first error; entries not reached keep their zero. -/
def dmaMapPages (env : HostEnv) : (page n : Nat) → List (BitVec 64) × Option Errno
  | _, 0 => ([], none)
  | page, n + 1 =>
    match env.dmaMappingError page with
    | some e => (env.dmaMapPage page :: List.replicate n 0#64, some e)
    | none =>
      let rest := dmaMapPages env (page + 1) n
      (env.dmaMapPage page :: rest.1, rest.2)

/-- `map_user_pages`: the descriptor and the error, if any. When `get_user_pages` pins fewer pages
than requested, `n_addrs` is lowered to that number and the mapping goes on. -/
def mapUserPages (P : Nat) (env : HostEnv) (map : Map) : Map × Option Errno :=
  if !env.pageArray then (map, some .ENOMEM)
  else
    match env.getUserPages with
    | .error e => (map, some e)
    | .ok 0 => (map, none)
    | .ok (n + 1) =>
      let (addrs, err) := dmaMapPages env (map.vaddr / P) (n + 1)
      let pages := (List.range (n + 1)).map (map.vaddr / P + ·)
      ({ map with
          addrs := addrs
          pages := pages
          pageSize := P
          release := some .userPages }, err)

/-- `map_userspace`, without the insertion into `host_list`. -/
def mapUserspace (P : Nat) (env : HostEnv) (id : Nat) (current : Task) (pdev vaddr nPages : Nat) :
    Except Errno Map :=
  if nPages < 1 then .error .EINVAL
  else if !env.descriptor then .error .ENOMEM
  else
    let md := { createDescriptor id current pdev (mask 64 vaddr P) nPages vaddr with pageSize := P }
    match mapUserPages P env md with
    | (md, none) => .ok md
    | (_, some e) => .error e

/-! ## GPU memory -/

/-- What the kernel and the NVIDIA driver answer: the three allocations, the number of entries of
the page table for a number of pages requested, and the `dma_addresses` that
`nvidia_p2p_dma_map_pages` fills in for the `j`-th controller of `ctrl_list`, by GPU virtual page
number. -/
structure GpuEnv where
  descriptor : Bool
  region : Bool
  mappings : Bool
  getPages : Nat → Except Errno Nat
  dmaMapPages : Nat → Except Errno (Nat → BitVec 64)

/-- The loop over `ctrl_list` from its `j`-th entry on, `n` controllers being left. The addresses
are taken from the first controller's mapping. -/
def mapControllers (env : GpuEnv) (page nAddrs : Nat) :
    (j n : Nat) → List (BitVec 64) → List (BitVec 64) × Option Errno
  | _, 0, addrs => (addrs, none)
  | j, n + 1, addrs =>
    match env.dmaMapPages j with
    | .error e => (addrs, some e)
    | .ok dmaAddresses =>
      mapControllers env page nAddrs (j + 1) n
        (if j = 0 then (List.range nAddrs).map fun i => dmaAddresses (page + i) else addrs)

/-- `map_gpu_memory`. At the end `n_addrs` becomes the number of entries of the page table, which
is not more than was requested. -/
def mapGpuMemory (env : GpuEnv) (nCtrls : Nat) (map : Map) : Map × Option Errno :=
  if !env.region || !env.mappings then (map, some .ENOMEM)
  else
    let map := { map with pageSize := GPU_PAGE_SIZE, release := some .gpuMemory }
    match env.getPages map.addrs.length with
    | .error e => (map, some e)
    | .ok entries =>
      match mapControllers env (map.vaddr / GPU_PAGE_SIZE) map.addrs.length 0 nCtrls map.addrs with
      | (addrs, some e) => ({ map with addrs := addrs }, some e)
      | (addrs, none) => ({ map with addrs := addrs.take entries }, none)

/-- `map_device_memory`, without the insertion into `device_list`. -/
def mapDeviceMemory (env : GpuEnv) (nCtrls id : Nat) (current : Task) (pdev vaddr nPages : Nat) :
    Except Errno Map :=
  if nPages < 1 then .error .EINVAL
  else if !env.descriptor then .error .ENOMEM
  else
    let md := { createDescriptor id current pdev (mask 64 vaddr GPU_PAGE_SIZE) nPages vaddr with
      pageSize := GPU_PAGE_SIZE }
    match mapGpuMemory env nCtrls md with
    | (md, none) => .ok md
    | (_, some e) => .error e

/-! ## dma-buf memory -/

/-- `struct nvm_ioctl_dmabuf`. -/
structure DmabufReq where
  gpuPtr : Nat
  fd : Int
  offset : Nat
  size : Nat
  capacity : Nat
  ioaddrs : Nat
  gpuPtr_lt : gpuPtr < 2 ^ 64

/-- What the kernel answers: the two allocations, the four dma-buf calls, the SG table as a list
of DMA address and length, and whether the mapping was invalidated during setup. -/
structure DmabufEnv where
  descriptor : Bool
  region : Bool
  get : Option Errno
  attach : Option Errno
  pin : Option Errno
  mapAttachment : Except Errno (List (BitVec 64 × Nat))
  invalid : Bool

/-- `while (len >= ctrl_page_size && page_idx < expected_pages)`, with room for `k` more pages:
the addresses written and the length left. -/
def sgFill (P : Nat) : (k : Nat) → BitVec 64 → Nat → List (BitVec 64) × Nat
  | 0, _, len => ([], len)
  | k + 1, addr, len =>
    if P ≤ len then
      let rest := sgFill P k (addr + BitVec.ofNat 64 P) (len - P)
      (addr :: rest.1, rest.2)
    else ([], len)

/-- `sg_flatten_to_addrs`, with `k` pages still expected and `off` bytes still to skip: the
addresses written. -/
def sgFlattenToAddrs (P : Nat) :
    List (BitVec 64 × Nat) → (k off : Nat) → Except Errno (List (BitVec 64))
  | [], k, _ => if k ≠ 0 then .error .EINVAL else .ok []
  | (addr, len) :: sgt, k, off =>
    if 0 < off ∧ len ≤ off then sgFlattenToAddrs P sgt k (off - len)
    else
      let filled := sgFill P k (addr + BitVec.ofNat 64 off) (len - off)
      let left := k - filled.1.length
      if 0 < filled.2 ∧ 0 < left then .error .EINVAL
      else if left = 0 then .ok filled.1
      else
        match sgFlattenToAddrs P sgt left 0 with
        | .error e => .error e
        | .ok addrs => .ok (filled.1 ++ addrs)

/-- `map_dmabuf_memory`. -/
def mapDmabufMemory (P : Nat) (env : DmabufEnv) (offset nPages capacity : Nat) (map : Map) :
    Map × Option Errno :=
  if nPages > capacity then (map, some .EOVERFLOW)
  else if !env.region then (map, some .ENOMEM)
  else
    match env.get, env.attach, env.pin, env.mapAttachment with
    | some e, _, _, _ => (map, some e)
    | none, some e, _, _ => (map, some e)
    | none, none, some e, _ => (map, some e)
    | none, none, none, .error e => (map, some e)
    | none, none, none, .ok sgt =>
      match sgFlattenToAddrs P sgt nPages offset with
      | .error e => ({ map with pageSize := P, release := some .dmabufMemory }, some e)
      | .ok addrs =>
        ({ map with pageSize := P, release := some .dmabufMemory, addrs := addrs }, none)

/-- `map_dmabuf`, without the insertion into `device_list`. -/
def mapDmabuf (P : Nat) (env : DmabufEnv) (id : Nat) (current : Task) (pdev gpuPtr offset nPages
    capacity : Nat) : Except Errno Map :=
  if nPages < 1 then .error .EINVAL
  else if !env.descriptor then .error .ENOMEM
  else
    let md := { createDescriptor id current pdev gpuPtr nPages gpuPtr with pageSize := P }
    match mapDmabufMemory P env offset nPages capacity md with
    | (md, none) => .ok md
    | (_, some e) => .error e

/-! ## What a new mapping looks like -/

/-- A host mapping that was made: the pages that were pinned are mapped, if there were any. -/
theorem mapUserspace_made {P : Nat} {env : HostEnv} {id : Nat} {current : Task}
    {pdev vaddr nPages : Nat} {m : Map}
    (h : mapUserspace P env id current pdev vaddr nPages = .ok m) :
    ∃ n md,
      md = { createDescriptor id current pdev (mask 64 vaddr P) nPages vaddr with pageSize := P } ∧
      env.getUserPages = .ok n ∧
      (n = 0 ∧ m = md ∨
        (dmaMapPages env (mask 64 vaddr P / P) n).2 = none ∧
          m = { md with
            addrs := (dmaMapPages env (mask 64 vaddr P / P) n).1
            pages := (List.range n).map (mask 64 vaddr P / P + ·)
            release := some .userPages }) := by
  simp only [mapUserspace] at h
  split at h
  · cases h
  split at h
  · cases h
  split at h
  · rename_i md heq
    cases h
    simp only [mapUserPages] at heq
    split at heq
    · cases heq
    split at heq
    · cases heq
    · rename_i hpin
      cases heq
      exact ⟨0, _, rfl, hpin, .inl ⟨rfl, rfl⟩⟩
    · rename_i n hpin
      simp only [Prod.mk.injEq] at heq
      exact ⟨n + 1, _, rfl, hpin, .inr ⟨heq.2, heq.1.symm⟩⟩
  · cases h

/-- A mapping of GPU memory that was made: every controller has mapped the pages. -/
theorem mapDeviceMemory_made {env : GpuEnv} {nCtrls id : Nat} {current : Task}
    {pdev vaddr nPages : Nat} {m : Map}
    (h : mapDeviceMemory env nCtrls id current pdev vaddr nPages = .ok m) :
    ∃ entries addrs, env.getPages nPages = .ok entries ∧
      mapControllers env (mask 64 vaddr GPU_PAGE_SIZE / GPU_PAGE_SIZE) nPages 0 nCtrls
        (List.replicate nPages 0#64) = (addrs, none) ∧
      m = { createDescriptor id current pdev (mask 64 vaddr GPU_PAGE_SIZE) nPages vaddr with
        pageSize := GPU_PAGE_SIZE, release := some .gpuMemory, addrs := addrs.take entries } := by
  simp only [mapDeviceMemory] at h
  split at h
  · cases h
  split at h
  · cases h
  split at h
  · rename_i md heq
    cases h
    simp only [mapGpuMemory, createDescriptor, List.length_replicate] at heq
    split at heq
    · cases heq
    split at heq
    · cases heq
    rename_i entries hpages
    split at heq
    · cases heq
    · rename_i addrs hctrls
      cases heq
      exact ⟨entries, addrs, hpages, hctrls, rfl⟩
  · cases h

/-- A dma-buf mapping that was made: the SG table was flattened. -/
theorem mapDmabuf_made {P : Nat} {env : DmabufEnv} {id : Nat} {current : Task}
    {pdev gpuPtr offset nPages capacity : Nat} {m : Map}
    (h : mapDmabuf P env id current pdev gpuPtr offset nPages capacity = .ok m) :
    ∃ sgt addrs, sgFlattenToAddrs P sgt nPages offset = .ok addrs ∧
      m = { createDescriptor id current pdev gpuPtr nPages gpuPtr with
        pageSize := P, release := some .dmabufMemory, addrs := addrs } := by
  simp only [mapDmabuf] at h
  split at h
  · cases h
  split at h
  · cases h
  split at h
  · rename_i md heq
    cases h
    simp only [mapDmabufMemory] at heq
    split at heq
    · cases heq
    split at heq
    · cases heq
    split at heq
    · cases heq
    · cases heq
    · cases heq
    · cases heq
    · split at heq
      · cases heq
      · rename_i addrs hflat
        cases heq
        exact ⟨_, addrs, hflat, rfl⟩
  · cases h

/-- The parts of a mapping that `map_find` compares, and where it comes from. -/
structure Map.MadeFor (m : Map) (id : Nat) (current : Task) (pdev reqAddr : Nat) : Prop where
  id_eq : m.id = id
  owner_eq : m.owner = current
  pdev_eq : m.pdev = pdev
  req_eq : m.reqAddr = reqAddr
  page_pos : 0 < m.pageSize
  vaddr_eq : m.vaddr = mask 64 m.reqAddr m.pageSize

theorem mapUserspace_madeFor {P : Nat} (hP : 0 < P) {env : HostEnv} {id : Nat} {current : Task}
    {pdev vaddr nPages : Nat} {m : Map}
    (h : mapUserspace P env id current pdev vaddr nPages = .ok m) :
    m.MadeFor id current pdev vaddr := by
  obtain ⟨n, md, rfl, -, ⟨-, rfl⟩ | ⟨-, rfl⟩⟩ := mapUserspace_made h
  · exact ⟨rfl, rfl, rfl, rfl, hP, rfl⟩
  · exact ⟨rfl, rfl, rfl, rfl, hP, rfl⟩

theorem mapDeviceMemory_madeFor {env : GpuEnv} {nCtrls id : Nat} {current : Task}
    {pdev vaddr nPages : Nat} {m : Map}
    (h : mapDeviceMemory env nCtrls id current pdev vaddr nPages = .ok m) :
    m.MadeFor id current pdev vaddr := by
  obtain ⟨entries, addrs, -, -, rfl⟩ := mapDeviceMemory_made h
  exact ⟨rfl, rfl, rfl, rfl, Nat.two_pow_pos 16, rfl⟩

/-- A dma-buf mapping keeps its pointer as it is; the ioctl has checked that it is page-aligned. -/
theorem mapDmabuf_madeFor {j : Nat} (hj : j ≤ 64) {env : DmabufEnv} {id : Nat} {current : Task}
    {pdev gpuPtr offset nPages capacity : Nat} {m : Map} (hlt : gpuPtr < 2 ^ 64)
    (hal : gpuPtr % 2 ^ j = 0)
    (h : mapDmabuf (2 ^ j) env id current pdev gpuPtr offset nPages capacity = .ok m) :
    m.MadeFor id current pdev gpuPtr := by
  have hmask : mask 64 gpuPtr (2 ^ j) = gpuPtr := mask_of_dvd hj hlt (Nat.dvd_of_mod_eq_zero hal)
  obtain ⟨sgt, addrs, -, rfl⟩ := mapDmabuf_made h
  exact ⟨rfl, rfl, rfl, rfl, Nat.two_pow_pos j, hmask.symm⟩

/-! ## The addresses of a new mapping -/

/-- The kernel has obtained the address `a` from `dma_map_page` for the virtual page `page`. -/
def Map.Obtained (m : Map) (page : Nat) (a : BitVec 64) : Prop :=
  ∃ i : Nat, m.pages[i]? = some page ∧ m.addrs[i]? = some a

theorem dmaMapPages_ok {env : HostEnv} {page n : Nat} (h : (dmaMapPages env page n).2 = none) :
    (dmaMapPages env page n).1 = (List.range n).map fun i => env.dmaMapPage (page + i) := by
  induction n generalizing page with
  | zero => rfl
  | succ n ih =>
    simp only [dmaMapPages] at h ⊢
    split at h
    · cases h
    · simp only [ih h, List.range_succ_eq_map, List.map_cons, Nat.add_zero, List.map_map]
      congr 2
      funext i
      simp [Nat.add_right_comm, Nat.add_assoc]

/-- As many pages as `get_user_pages` has pinned are mapped, from the page of the pointer on. -/
theorem mapUserspace_ok {P : Nat} {env : HostEnv} {id : Nat} {current : Task}
    {pdev vaddr nPages n : Nat} {m : Map}
    (h : mapUserspace P env id current pdev vaddr nPages = .ok m)
    (hpin : env.getUserPages = .ok n) (hn : 1 ≤ n) :
    m.pages = (List.range n).map (mask 64 vaddr P / P + ·) ∧
      m.addrs = (List.range n).map fun i => env.dmaMapPage (mask 64 vaddr P / P + i) := by
  obtain ⟨n', md, rfl, hpin', hm⟩ := mapUserspace_made h
  obtain rfl : n' = n := Except.ok.inj (hpin'.symm.trans hpin)
  rcases hm with ⟨rfl, -⟩ | ⟨hmap, rfl⟩
  · cases hn
  · exact ⟨rfl, dmaMapPages_ok hmap⟩

/-- For GPU memory the addresses are those that the first controller's mapping has. -/
theorem mapControllers_ok {env : GpuEnv} {page nAddrs : Nat} {D : Nat → BitVec 64}
    (hD : ∀ j, env.dmaMapPages j = .ok D) :
    ∀ (n j : Nat) (addrs : List (BitVec 64)),
      mapControllers env page nAddrs j n addrs =
        (if j = 0 ∧ n ≠ 0 then (List.range nAddrs).map fun i => D (page + i) else addrs, none)
  | 0, j, addrs => by simp [mapControllers]
  | n + 1, j, addrs => by
    simp only [mapControllers, hD, mapControllers_ok hD n (j + 1)]
    simp

/-- When the driver maps every page of a request, GPU page `g` having the address `D g`, the
mapping has the addresses of the pages from the pointer's 64 KiB page on. -/
theorem mapDeviceMemory_ok {env : GpuEnv} {nCtrls id : Nat} {current : Task}
    {pdev vaddr nPages : Nat} {m : Map} {D : Nat → BitVec 64}
    (hD : ∀ j, env.dmaMapPages j = .ok D) (hpages : env.getPages = .ok) (hc : nCtrls ≠ 0)
    (h : mapDeviceMemory env nCtrls id current pdev vaddr nPages = .ok m) :
    m.addrs = (List.range nPages).map fun i =>
      D (mask 64 vaddr GPU_PAGE_SIZE / GPU_PAGE_SIZE + i) := by
  obtain ⟨entries, addrs, hentries, hctrls, rfl⟩ := mapDeviceMemory_made h
  obtain rfl : nPages = entries := Except.ok.inj ((congrFun hpages nPages).symm.trans hentries)
  rw [mapControllers_ok hD] at hctrls
  obtain ⟨rfl, -⟩ := Prod.mk.inj hctrls
  simp [hc]

end Drv
end UGDS
