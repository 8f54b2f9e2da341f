import UGDS.Drv.Failed
import UGDS.Drv.SgFlatten

/-!
# UGDS.Drv.Descriptor

The size of a mapping descriptor (`create_descriptor`, `drv/map.c`) and the entries of `addrs` that
are written in it.

`sizeof(struct map)` counts one entry of `addrs`, and the allocation adds room for the others. The
size is computed in 64 bits. For host and CUDA memory `n_pages` comes from the caller as it is, so
the size can wrap around; for a dma-buf it is a 64-bit size divided by `PAGE_SIZE`.

* `MapRequest.writes`: the indices written for a request.
* `MapRequest.writes_lt`: they are below `n_pages`, and the loop of `create_descriptor` uses them all.
* `descriptor_fits`: when they all lie inside the allocation.
* `descriptor_too_small`: a host request for which they do not.
-/

namespace UGDS
namespace Drv

open Lib Nvm

/-! ## The allocation -/

/-- `sizeof(struct map)`: twelve words, with `invalid` padded to one, and `addrs[1]`. -/
def sizeofMap : Nat := 13 * 8

/-- `offsetof(struct map, addrs)`. -/
def offsetofAddrs : Nat := 12 * 8

/-- `sizeof(struct map) + (n_pages - 1) * sizeof(uint64_t)`. -/
def descriptorSize (nPages : Nat) : Nat := u64 (sizeofMap + u64 ((nPages - 1) * 8))

/-- `addrs[i]` lies inside an allocation of `size` bytes. -/
def EntryInside (size i : Nat) : Prop := offsetofAddrs + 8 * i + 8 ≤ size

/-! ## The writes -/

/-- `create_descriptor`. -/
def createDescriptorWrites (nPages : Nat) : List Nat := List.range nPages

/-- The mapping loop of `map_user_pages` from entry `i` on, over `n` more pages. The entry of a page
that cannot be mapped is written too. -/
def dmaMapPagesWrites (env : HostEnv) : (page n i : Nat) → List Nat
  | _, 0, _ => []
  | page, n + 1, i =>
    match env.dmaMappingError page with
    | some _ => [i]
    | none => i :: dmaMapPagesWrites env (page + 1) n (i + 1)

/-- `map_user_pages`. -/
def mapUserPagesWrites (P : Nat) (env : HostEnv) (vaddr : Nat) : List Nat :=
  if !env.pageArray then []
  else
    match env.getUserPages with
    | .error _ => []
    | .ok n => dmaMapPagesWrites env (vaddr / P) n 0

/-- The loop of `map_gpu_memory` from the `j`-th controller on, over `n` more. -/
def mapControllersWrites (env : GpuEnv) (nAddrs : Nat) : (j n : Nat) → List Nat
  | _, 0 => []
  | j, n + 1 =>
    match env.dmaMapPages j with
    | .error _ => []
    | .ok _ => (if j = 0 then List.range nAddrs else []) ++ mapControllersWrites env nAddrs (j + 1) n

/-- `map_gpu_memory`. -/
def mapGpuMemoryWrites (env : GpuEnv) (nCtrls nAddrs : Nat) : List Nat :=
  if !env.region || !env.mappings then []
  else
    match env.getPages nAddrs with
    | .error _ => []
    | .ok _ => mapControllersWrites env nAddrs 0 nCtrls

/-- `map_dmabuf_memory`. -/
def mapDmabufMemoryWrites (P : Nat) (env : DmabufEnv) (offset nPages capacity : Nat) : List Nat :=
  if nPages > capacity then []
  else if !env.region then []
  else
    match env.get, env.attach, env.pin, env.mapAttachment with
    | none, none, none, .ok sgt => (sgFlatten P nPages sgt 0 offset).1.map Prod.fst
    | _, _, _, _ => []

/-- The number of pages of a request. -/
def MapRequest.pages (P : Nat) : MapRequest → Nat
  | .host _ _ _ nPages _ => nPages
  | .device _ _ _ nPages _ => nPages
  | .dmabuf _ _ req _ => req.size / P

/-- The request reaches `create_descriptor`, and the allocation succeeds. -/
def MapRequest.Allocated (P : Nat) : MapRequest → Prop
  | .host copyIn _ _ nPages env => copyIn = true ∧ 1 ≤ nPages ∧ env.descriptor = true
  | .device copyIn _ _ nPages env => copyIn = true ∧ 1 ≤ nPages ∧ env.descriptor = true
  | .dmabuf copyIn _ req env =>
    copyIn = true ∧ ¬req.Rejected P ∧ 1 ≤ req.size / P ∧ env.descriptor = true

/-- The entries of `addrs` written after the allocation. -/
def MapRequest.writes (P nCtrls : Nat) : MapRequest → List Nat
  | .host _ _ vaddr nPages env =>
    createDescriptorWrites nPages ++ mapUserPagesWrites P env (mask 64 vaddr P)
  | .device _ _ _ nPages env =>
    createDescriptorWrites nPages ++ mapGpuMemoryWrites env nCtrls nPages
  | .dmabuf _ _ req env =>
    createDescriptorWrites (req.size / P) ++
      mapDmabufMemoryWrites P env req.offset (req.size / P) req.capacity

/-- The arguments are 64-bit values, and `get_user_pages` pins at most the pages it is asked for. -/
def MapRequest.InRange : MapRequest → Prop
  | .host _ _ _ nPages env => nPages < 2 ^ 64 ∧ ∀ n, env.getUserPages = .ok n → n ≤ nPages
  | .device _ _ _ nPages _ => nPages < 2 ^ 64
  | .dmabuf _ _ req _ => req.size < 2 ^ 64

/-! ## Where the writes are -/

section Writes

variable {P nCtrls : Nat}

theorem dmaMapPagesWrites_lt {env : HostEnv} {page n i x : Nat}
    (hx : x ∈ dmaMapPagesWrites env page n i) : x < i + n := by
  induction n generalizing page i with
  | zero => cases hx
  | succ n ih =>
    simp only [dmaMapPagesWrites] at hx
    split at hx
    · rw [List.mem_singleton.mp hx]
      omega
    · rcases List.mem_cons.mp hx with rfl | hx
      · omega
      · have := ih hx
        omega

theorem mapControllersWrites_lt {env : GpuEnv} {nAddrs j n x : Nat}
    (hx : x ∈ mapControllersWrites env nAddrs j n) : x < nAddrs := by
  induction n generalizing j with
  | zero => cases hx
  | succ n ih =>
    simp only [mapControllersWrites] at hx
    split at hx
    · cases hx
    · rcases List.mem_append.mp hx with hx | hx
      · split at hx
        · exact List.mem_range.mp hx
        · cases hx
      · exact ih hx

theorem sgFlatten_writes_lt (hP : 0 < P) {expected off x : Nat} {sgt : List (BitVec 64 × Nat)}
    (hx : x ∈ (sgFlatten P expected sgt 0 off).1.map Prod.fst) : x < expected := by
  obtain ⟨w, hw, rfl⟩ := List.mem_map.mp hx
  obtain ⟨hok, herr⟩ := sgFlatten_eq (P := P) sgt off (Nat.zero_le expected)
  rw [Nat.sub_zero] at hok herr
  cases hr : sgFlattenToAddrs P sgt expected off with
  | ok addrs =>
    rw [hok addrs hr] at hw
    have hlt := (numbered_lt hw).2
    rw [(sgFlattenToAddrs_ok hP hr).1] at hlt
    omega
  | error e =>
    obtain ⟨addrs, hlen, he⟩ := herr e hr
    rw [he] at hw
    have hlt := (numbered_lt hw).2
    omega

/-- No loop goes beyond `n_pages`. -/
theorem MapRequest.writes_lt {req : MapRequest} (hr : req.InRange) (ha : req.Allocated P) {i : Nat}
    (hi : i ∈ req.writes P nCtrls) : i < req.pages P := by
  cases req with
  | host copyIn copyOut vaddr nPages env =>
    rcases List.mem_append.mp hi with hi | hi
    · exact List.mem_range.mp hi
    · unfold mapUserPagesWrites at hi
      split at hi
      · cases hi
      split at hi
      · cases hi
      · rename_i n hn
        have hlt := dmaMapPagesWrites_lt hi
        have hle := hr.2 n hn
        simp only [MapRequest.pages]
        omega
  | device copyIn copyOut vaddr nPages env =>
    rcases List.mem_append.mp hi with hi | hi
    · exact List.mem_range.mp hi
    · unfold mapGpuMemoryWrites at hi
      split at hi
      · cases hi
      split at hi
      · cases hi
      · exact mapControllersWrites_lt hi
  | dmabuf copyIn copyOut req env =>
    rcases List.mem_append.mp hi with hi | hi
    · exact List.mem_range.mp hi
    · -- a quotient that is not 0 has a divisor that is not 0
      have hP : 0 < P := by
        by_contra hn
        rw [Nat.eq_zero_of_not_pos hn] at ha
        exact absurd ha.2.2.1 (by simp)
      unfold mapDmabufMemoryWrites at hi
      split at hi
      · cases hi
      split at hi
      · cases hi
      split at hi
      · exact sgFlatten_writes_lt hP hi
      · cases hi

/-- `create_descriptor` clears all entries. -/
theorem MapRequest.mem_writes {req : MapRequest} {i : Nat} (hi : i < req.pages P) :
    i ∈ req.writes P nCtrls := by
  cases req <;> exact List.mem_append_left _ (List.mem_range.mpr hi)

theorem MapRequest.pages_bounds {req : MapRequest} (hr : req.InRange) (ha : req.Allocated P) :
    1 ≤ req.pages P ∧ req.pages P < 2 ^ 64 := by
  cases req with
  | host copyIn copyOut vaddr nPages env => exact ⟨ha.2.1, hr.1⟩
  | device copyIn copyOut vaddr nPages env => exact ⟨ha.2.1, hr⟩
  | dmabuf copyIn copyOut req env => exact ⟨ha.2.2.1, (Nat.div_le_self _ _).trans_lt hr⟩

end Writes

/-- The last entry is inside the allocation when the size has not wrapped around. -/
theorem inside_last_iff {nPages : Nat} (h1 : 1 ≤ nPages) (h2 : nPages < 2 ^ 64) :
    EntryInside (descriptorSize nPages) (nPages - 1) ↔ nPages ≤ 2 ^ 61 - 13 := by
  simp only [EntryInside, descriptorSize, sizeofMap, offsetofAddrs, u64]
  omega

/-- The request is for a dma-buf. -/
def MapRequest.IsDmabuf : MapRequest → Prop
  | .dmabuf .. => True
  | _ => False

/-- For every request of 64-bit arguments whose descriptor was allocated, with `get_user_pages` as it
is documented: all writes to `addrs` lie inside the allocation exactly if there are at most `2 ^ 61 - 13`
pages. A dma-buf request always has fewer. -/
theorem descriptor_fits (P nCtrls : Nat) (req : MapRequest) (hr : req.InRange)
    (ha : req.Allocated P) :
    ((∀ i ∈ req.writes P nCtrls, EntryInside (descriptorSize (req.pages P)) i) ↔
        req.pages P ≤ 2 ^ 61 - 13) ∧
      (4096 ≤ P → req.IsDmabuf → req.pages P ≤ 2 ^ 61 - 13) := by
  obtain ⟨h1, h2⟩ := req.pages_bounds hr ha
  refine ⟨⟨fun h => ?_, fun h i hi => ?_⟩, fun hP hd => ?_⟩
  · exact (inside_last_iff h1 h2).mp (h _ (req.mem_writes (by omega)))
  · have hlast := (inside_last_iff h1 h2).mpr h
    have hlt := req.writes_lt hr ha hi
    unfold EntryInside at hlast ⊢
    omega
  · cases req with
    | host => cases hd
    | device => cases hd
    | dmabuf copyIn copyOut req env =>
      have hle : req.size / P ≤ req.size / 4096 := Nat.div_le_div_left hP (by decide)
      have hlt : req.size < 2 ^ 64 := hr
      simp only [MapRequest.pages]
      omega

/-- A host request for `nPages` pages, of which one can be pinned. -/
def onePinned (nPages : Nat) : MapRequest :=
  .host true true 0x10000 nPages ⟨true, true, .ok 1, fun _ => 0x1000#64, fun _ => none⟩

theorem onePinned_inRange {nPages : Nat} (h1 : 1 ≤ nPages) (h2 : nPages < 2 ^ 64) :
    (onePinned nPages).InRange := by
  refine ⟨h2, fun n hn => ?_⟩
  cases hn
  exact h1

theorem descriptor_fits_two :
    (onePinned 2).Allocated 4096 ∧
      ∀ i ∈ (onePinned 2).writes 4096 1, EntryInside (descriptorSize 2) i := by
  have ha : (onePinned 2).Allocated 4096 := ⟨rfl, by decide, rfl⟩
  exact ⟨ha, (descriptor_fits 4096 1 (onePinned 2) (onePinned_inRange (by decide) (by decide))
    ha).1.mpr (by decide)⟩

/-- For `2 ^ 61 + 1` pages the allocation has 104 bytes, the size of one entry. -/
theorem descriptor_too_small :
    ¬ ∀ (P nCtrls : Nat) (req : MapRequest), req.InRange → req.Allocated P →
      ∀ i ∈ req.writes P nCtrls, EntryInside (descriptorSize (req.pages P)) i := by
  intro h
  have hin := h 4096 1 (onePinned (2 ^ 61 + 1)) (onePinned_inRange (by decide) (by decide))
    ⟨rfl, by decide, rfl⟩ 1 (MapRequest.mem_writes (by decide))
  exact absurd hin (by unfold EntryInside; decide)

end Drv
end UGDS
