import UGDS.Drv.Gpu
import UGDS.Lib.Ledger

/-!
# UGDS.Drv.Calls

The resources that the mapping functions of `drv/map.c` take from the rest of the kernel, as the
sequence of their calls: pages pinned and mapped for DMA, GPU pages and their per-controller
mappings, and the four steps of a dma-buf. `map_*` gives back what it has taken when it fails, either
by itself or through `unmap_and_release`, which runs the release callback if `map->data` is set.

* `mapUserspaceCalls_error`, `mapDeviceMemoryCalls_spec`, `mapDmabufCalls_error`: after a failed
  mapping nothing is held.
* `mapDmabufCalls_ok`: a dma-buf mapping holds one of each.
-/

namespace UGDS
namespace Drv

open Lib Nvm

inductive Res where
  | userPage (page : Nat)
  | dmaPage (pdev : Nat) (addr : BitVec 64)
  | p2pPages
  | p2pMapping (pdev : Nat) (m : P2pMapping)
  | dmabuf
  | attachment
  | pin
  | sgt
  deriving DecidableEq, Repr

/-- `unmap_and_release` runs the callback if there is one and `map->data` is set. -/
def unmapAndReleaseCalls (map : Map) (data : Bool) (release : List (Op Res)) : List (Op Res) :=
  if map.release.isSome && data then release else []

/-! ## Host memory -/

/-- `release_user_pages`. -/
def releaseUserPagesCalls (map : Map) : List (Op Res) :=
  map.addrs.map (fun a => .release (.dmaPage map.pdev a)) ++
    map.pages.map fun p => .release (.userPage p)

/-- The mapping loop of `map_user_pages`. A page whose mapping fails is not mapped. -/
def dmaMapPagesCalls (env : HostEnv) (pdev : Nat) : (page n : Nat) → List (Op Res)
  | _, 0 => []
  | page, n + 1 =>
    match env.dmaMappingError page with
    | some _ => []
    | none => .acquire (.dmaPage pdev (env.dmaMapPage page)) :: dmaMapPagesCalls env pdev (page + 1) n

/-- `map_user_pages`: its calls, and whether `map->data` is set when it returns. -/
def mapUserPagesCalls (P : Nat) (env : HostEnv) (map : Map) : List (Op Res) × Bool :=
  if !env.pageArray then ([], false)
  else
    match env.getUserPages with
    | .error _ => ([], false)
    | .ok 0 => ([], false)
    | .ok (n + 1) =>
      ((List.range (n + 1)).map (fun i => .acquire (.userPage (map.vaddr / P + i))) ++
        dmaMapPagesCalls env map.pdev (map.vaddr / P) (n + 1), true)

/-- `map_userspace`. -/
def mapUserspaceCalls (P : Nat) (env : HostEnv) (id : Nat) (current : Task)
    (pdev vaddr nPages : Nat) : List (Op Res) :=
  if nPages < 1 then []
  else if !env.descriptor then []
  else
    let md := { createDescriptor id current pdev (mask 64 vaddr P) nPages vaddr with pageSize := P }
    let calls := mapUserPagesCalls P env md
    match mapUserPages P env md with
    | (_, none) => calls.1
    | (md, some _) => calls.1 ++ unmapAndReleaseCalls md calls.2 (releaseUserPagesCalls md)

/-- The pages that the loop maps are the first ones of the address list. -/
theorem dmaMapPagesCalls_eq (env : HostEnv) (pdev : Nat) :
    ∀ (n page : Nat), ∃ mapped rest, (dmaMapPages env page n).1 = mapped ++ rest ∧
      dmaMapPagesCalls env pdev page n = mapped.map fun a => .acquire (.dmaPage pdev a) := by
  intro n
  induction n with
  | zero =>
    intro page
    exact ⟨[], [], rfl, rfl⟩
  | succ n ih =>
    intro page
    simp only [dmaMapPages, dmaMapPagesCalls]
    cases env.dmaMappingError page with
    | some e => exact ⟨[], _, rfl, rfl⟩
    | none =>
      obtain ⟨mapped, rest, h1, h2⟩ := ih (page + 1)
      exact ⟨env.dmaMapPage page :: mapped, rest, by simp [h1], by simp [h2]⟩

/-- Whatever `map_user_pages` has pinned and mapped, `release_user_pages` gives back; it also unmaps
entries that were never mapped. -/
theorem mapUserPages_released {P : Nat} {env : HostEnv} {map md : Map} {e : Errno}
    (h : mapUserPages P env map = (md, some e)) :
    let calls := mapUserPagesCalls P env map
    held [] (calls.1 ++ unmapAndReleaseCalls md calls.2 (releaseUserPagesCalls md)) = [] := by
  unfold mapUserPages at h
  unfold mapUserPagesCalls
  split at h
  · rename_i hp
    simp [hp, unmapAndReleaseCalls, held]
  rename_i hp
  rw [if_neg hp]
  rcases hn : env.getUserPages with e | _ | n
  · simp [unmapAndReleaseCalls, held]
  · rw [hn] at h
    cases h
  · rw [hn] at h
    simp only [Prod.mk.injEq] at h
    obtain ⟨rfl, -⟩ := h
    obtain ⟨mapped, rest, haddrs, hcalls⟩ := dmaMapPagesCalls_eq env map.pdev (n + 1) (map.vaddr / P)
    simp only [unmapAndReleaseCalls, Option.isSome_some, Bool.and_self, if_true,
      releaseUserPagesCalls, hcalls, haddrs]
    have hacq : (List.range (n + 1)).map
          (fun i => (Op.acquire (Res.userPage (map.vaddr / P + i)) : Op Res)) ++
        mapped.map (fun a => .acquire (.dmaPage map.pdev a)) =
        (((List.range (n + 1)).map fun i => Res.userPage (map.vaddr / P + i)) ++
          mapped.map (Res.dmaPage map.pdev)).map .acquire := by
      simp [Function.comp_def]
    have hrel : (mapped ++ rest).map (fun a => (Op.release (.dmaPage map.pdev a) : Op Res)) ++
          ((List.range (n + 1)).map (map.vaddr / P + ·)).map (fun p => .release (.userPage p)) =
        ((mapped ++ rest).map (Res.dmaPage map.pdev) ++
          (List.range (n + 1)).map fun i => Res.userPage (map.vaddr / P + i)).map .release := by
      simp [Function.comp_def]
    rw [hacq, hrel]
    refine held_all_released ?_
    intro r
    simp only [List.map_append, List.count_append]
    omega

theorem mapUserspaceCalls_error {P : Nat} {env : HostEnv} {id : Nat} {current : Task}
    {pdev vaddr nPages : Nat} {e : Errno}
    (h : mapUserspace P env id current pdev vaddr nPages = .error e) :
    held [] (mapUserspaceCalls P env id current pdev vaddr nPages) = [] := by
  unfold mapUserspace at h
  unfold mapUserspaceCalls
  split
  · rfl
  rename_i h1
  rw [if_neg h1] at h
  split
  · rfl
  rename_i h2
  rw [if_neg h2] at h
  simp only at h ⊢
  split
  · rename_i md heq
    rw [heq] at h
    cases h
  · rename_i md e' heq
    exact mapUserPages_released heq

/-! ## GPU memory -/

/-- `release_gpu_memory`; `pages` says that `gd->pages` is set. -/
def releaseGpuMemoryCalls (ms : List (Option P2pMapping)) (pages : Bool) (ctrls : List Ctrl) :
    Option (List (Op Res)) :=
  (unmapMappings ms ctrls 0).map fun calls =>
    calls.map (fun x => .release (.p2pMapping x.1 x.2)) ++ if pages then [.release .p2pPages] else []

/-- `map_gpu_memory`: its calls, `gd->mappings` if `map->data` is set, and whether `gd->pages` is. -/
def mapGpuMemoryCalls (env : GpuEnv) (ctrls : List Ctrl) (nAddrs : Nat) :
    Option (List (Op Res) × Option (List (Option P2pMapping)) × Bool) :=
  if !env.region || !env.mappings then some ([], none, false)
  else
    match env.getPages nAddrs with
    | .error _ => some ([], some noMappings, false)
    | .ok _ =>
      (storeMappings env ctrls 0 noMappings).map fun r =>
        (.acquire .p2pPages :: (created env ctrls 0).1.map (fun m => .acquire (.p2pMapping m.pdev m)),
          some r.1, true)

/-- `map_device_memory`. -/
def mapDeviceMemoryCalls (env : GpuEnv) (ctrls : List Ctrl) (id : Nat) (current : Task)
    (pdev vaddr nPages : Nat) : Option (List (Op Res)) :=
  if nPages < 1 then some []
  else if !env.descriptor then some []
  else
    let md := { createDescriptor id current pdev (mask 64 vaddr GPU_PAGE_SIZE) nPages vaddr with
      pageSize := GPU_PAGE_SIZE }
    match mapGpuMemoryCalls env ctrls md.addrs.length, mapGpuMemory env ctrls.length md with
    | none, _ => none
    | some (calls, _, _), (_, none) => some calls
    | some (calls, none, _), (_, some _) => some calls
    | some (calls, some ms, pages), (md, some _) =>
      (releaseGpuMemoryCalls ms pages ctrls).map fun rel =>
        calls ++ unmapAndReleaseCalls md true rel

/-- The loop over the controllers is reached. -/
structure GpuEnv.Reaches (env : GpuEnv) (nPages : Nat) : Prop where
  pages : 1 ≤ nPages
  descriptor : env.descriptor = true
  region : env.region = true
  mappings : env.mappings = true
  entries : ∃ n, env.getPages nPages = .ok n

/-- The walks stay inside `gd->mappings`. -/
def GpuEnv.InBounds (env : GpuEnv) (ctrls : List Ctrl) : Prop :=
  ctrls.length ≤ maxNumCtrls ∨ (created env ctrls 0).1.length < maxNumCtrls

theorem created_length (env : GpuEnv) :
    ∀ (ctrls : List Ctrl) (j : Nat),
      ((created env ctrls j).2 = none → (created env ctrls j).1.length = ctrls.length) ∧
        ((created env ctrls j).2 ≠ none → (created env ctrls j).1.length < ctrls.length) := by
  intro ctrls
  induction ctrls with
  | nil =>
    intro j
    simp [created]
  | cons ctrl rest ih =>
    intro j
    cases hm : env.dmaMapPages j with
    | error e => simp [created, hm]
    | ok _ =>
      obtain ⟨h1, h2⟩ := ih (j + 1)
      simp only [created, hm, List.length_cons]
      exact ⟨fun h => by rw [h1 h], fun h => Nat.succ_lt_succ (h2 h)⟩

/-- In the list that the mappings were made for, each gets the device it was made for. -/
theorem zip_own : ∀ (made : List P2pMapping) (devs : List Nat), made.map P2pMapping.pdev <+: devs →
    (devs.zip made).map (fun x => (Op.release (.p2pMapping x.1 x.2) : Op Res)) =
      made.map fun m => .release (.p2pMapping m.pdev m)
  | [], _, _ => by simp
  | m :: made, [], h => by simp at h
  | m :: made, d :: devs, h => by
    obtain ⟨hd, h⟩ := List.cons_prefix_cons.mp h
    simp [zip_own made devs h, hd]

/-- Giving the mappings back to the list that they were made for. -/
theorem releaseGpuMemory_made {env : GpuEnv} {ctrls : List Ctrl}
    (hfits : (created env ctrls 0).1.length ≤ maxNumCtrls) (pages : Bool) :
    releaseGpuMemoryCalls (filled (created env ctrls 0).1) pages ctrls =
      if (created env ctrls 0).1.length = maxNumCtrls ∧ maxNumCtrls < ctrls.length then none
      else some ((created env ctrls 0).1.map (fun m => .release (.p2pMapping m.pdev m)) ++
        if pages then [.release .p2pPages] else []) := by
  rw [releaseGpuMemoryCalls, unmapMappings_all hfits]
  by_cases hfull : (created env ctrls 0).1.length = maxNumCtrls ∧ maxNumCtrls < ctrls.length
  · simp only [if_pos hfull, Option.map_none]
  · simp only [if_neg hfull, Option.map_some, zip_own _ _ (created_pdev env ctrls 0)]

theorem releaseGpuMemory_none (ctrls : List Ctrl) :
    releaseGpuMemoryCalls noMappings false ctrls = some [] := by
  have h := @unmapMappings_all [] (Nat.zero_le _) ctrls
  rw [if_neg fun hx => absurd hx.1 (by decide), filled_nil, List.zip_nil_right] at h
  rw [releaseGpuMemoryCalls, h]
  rfl

/-- The mappings fit the array, and the walk that gives them back meets its end inside it. -/
theorem GpuEnv.inBounds_iff (env : GpuEnv) (ctrls : List Ctrl) :
    env.InBounds ctrls ↔ (created env ctrls 0).1.length ≤ maxNumCtrls ∧
      ¬ ((created env ctrls 0).1.length = maxNumCtrls ∧ maxNumCtrls < ctrls.length) := by
  have hle : (created env ctrls 0).1.length ≤ ctrls.length := by
    by_cases herr : (created env ctrls 0).2 = none
    · exact ((created_length env ctrls 0).1 herr).le
    · exact ((created_length env ctrls 0).2 herr).le
  unfold GpuEnv.InBounds
  omega

/-- A mapping that stops before the loop over the controllers has called nothing. -/
theorem mapDeviceMemoryCalls_unreached {env : GpuEnv} {nPages : Nat} (h : ¬ env.Reaches nPages)
    (ctrls : List Ctrl) (id : Nat) (current : Task) (pdev vaddr : Nat) :
    mapDeviceMemoryCalls env ctrls id current pdev vaddr nPages = some [] := by
  unfold mapDeviceMemoryCalls
  split
  · rfl
  rename_i hn
  split
  · rfl
  rename_i hd
  unfold mapGpuMemoryCalls mapGpuMemory
  split
  · rfl
  rename_i hrm
  simp only [Bool.not_eq_true', Bool.or_eq_true, not_or, Bool.not_eq_false] at hd hrm
  cases hp : env.getPages nPages with
  | ok entries => exact absurd ⟨by omega, hd, hrm.1, hrm.2, entries, hp⟩ h
  | error e => simp [createDescriptor, hp, releaseGpuMemory_none, unmapAndReleaseCalls]

/-- What `map_device_memory` has mapped when its loop fails, `release_gpu_memory` gives back. -/
theorem created_released (made : List P2pMapping) :
    held [] (Op.acquire Res.p2pPages :: made.map (fun m => .acquire (.p2pMapping m.pdev m)) ++
      (made.map (fun m => .release (.p2pMapping m.pdev m)) ++ [.release .p2pPages])) = [] := by
  have h := held_all_released
    (a := Res.p2pPages :: made.map fun m => .p2pMapping m.pdev m)
    (b := (made.map fun m => .p2pMapping m.pdev m) ++ [.p2pPages])
    (fun r => by simp only [List.count_cons, List.count_append, List.count_nil]; omega)
  simpa [Function.comp_def] using h

/-- A mapping that reaches the loop stays inside the array exactly if it is in bounds; one that
fails then leaves nothing. -/
theorem mapDeviceMemoryCalls_reached {env : GpuEnv} {nPages : Nat} (h : env.Reaches nPages)
    (ctrls : List Ctrl) (id : Nat) (current : Task) (pdev vaddr : Nat) :
    (¬ env.InBounds ctrls ∧
        mapDeviceMemoryCalls env ctrls id current pdev vaddr nPages = none) ∨
      (env.InBounds ctrls ∧
        ∃ calls, mapDeviceMemoryCalls env ctrls id current pdev vaddr nPages = some calls ∧
          ∀ e, mapDeviceMemory env ctrls.length id current pdev vaddr nPages = .error e →
            held [] calls = []) := by
  obtain ⟨entries, hp⟩ := h.entries
  have herr := created_err env
    (mask 64 vaddr GPU_PAGE_SIZE / GPU_PAGE_SIZE) nPages ctrls 0 (List.replicate nPages 0#64)
  rw [env.inBounds_iff ctrls]
  unfold mapDeviceMemoryCalls mapDeviceMemory mapGpuMemoryCalls mapGpuMemory
  simp only [if_neg (Nat.not_lt.mpr h.pages), h.descriptor, h.region, h.mappings, hp,
    createDescriptor, List.length_replicate, Bool.not_true, Bool.or_self, Bool.false_eq_true,
    if_false, storeMappings_all]
  by_cases hfits : (created env ctrls 0).1.length ≤ maxNumCtrls
  swap
  · exact .inl ⟨fun hb => hfits hb.1, by simp only [if_neg hfits, Option.map_none]⟩
  rw [if_pos hfits]
  rcases hmc : mapControllers env (mask 64 vaddr GPU_PAGE_SIZE / GPU_PAGE_SIZE) nPages 0
      ctrls.length (List.replicate nPages 0#64) with ⟨addrs, _ | e⟩
  · rw [hmc] at herr
    have hall := (created_length env ctrls 0).1 herr.symm
    exact .inr ⟨⟨hfits, by omega⟩, _, rfl, by simp⟩
  · simp only [Option.map_some, releaseGpuMemory_made hfits]
    by_cases hfull : (created env ctrls 0).1.length = maxNumCtrls ∧ maxNumCtrls < ctrls.length
    · exact .inl ⟨fun hb => hb.2 hfull, by rw [if_pos hfull]; rfl⟩
    · refine .inr ⟨⟨hfits, hfull⟩, _, by rw [if_neg hfull]; rfl, fun _ _ => ?_⟩
      simpa [unmapAndReleaseCalls] using created_released (created env ctrls 0).1

/-- The calls stay inside the array exactly if the loop is not reached or in bounds; a mapping that
fails then leaves nothing. -/
theorem mapDeviceMemoryCalls_spec (env : GpuEnv) (ctrls : List Ctrl) (id : Nat) (current : Task)
    (pdev vaddr nPages : Nat) :
    (¬ (env.Reaches nPages → env.InBounds ctrls) ∧
        mapDeviceMemoryCalls env ctrls id current pdev vaddr nPages = none) ∨
      ((env.Reaches nPages → env.InBounds ctrls) ∧
        ∃ calls, mapDeviceMemoryCalls env ctrls id current pdev vaddr nPages = some calls ∧
          ∀ e, mapDeviceMemory env ctrls.length id current pdev vaddr nPages = .error e →
            held [] calls = []) := by
  by_cases h : env.Reaches nPages
  · rcases mapDeviceMemoryCalls_reached h ctrls id current pdev vaddr with ⟨hb, hc⟩ | ⟨hb, hc⟩
    · exact .inl ⟨fun hi => hb (hi h), hc⟩
    · exact .inr ⟨fun _ => hb, hc⟩
  · exact .inr ⟨fun hr => absurd hr h, [],
      mapDeviceMemoryCalls_unreached h ctrls id current pdev vaddr, fun _ _ => rfl⟩

/-! ## dma-buf memory -/

/-- `release_dmabuf_memory` of a mapping that was set up. -/
def releaseDmabufMemoryCalls : List (Op Res) :=
  [.release .sgt, .release .pin, .release .attachment, .release .dmabuf]

/-- `map_dmabuf_memory`: its calls, and whether `map->data` is set when it returns. A failed
`sg_flatten_to_addrs` gives everything back and clears `map->data` again. -/
def mapDmabufMemoryCalls (P : Nat) (env : DmabufEnv) (offset nPages capacity : Nat) :
    List (Op Res) × Bool :=
  if nPages > capacity then ([], false)
  else if !env.region then ([], false)
  else
    match env.get, env.attach, env.pin, env.mapAttachment with
    | some _, _, _, _ => ([], false)
    | none, some _, _, _ => ([.acquire .dmabuf, .release .dmabuf], false)
    | none, none, some _, _ =>
      ([.acquire .dmabuf, .acquire .attachment, .release .attachment, .release .dmabuf], false)
    | none, none, none, .error _ =>
      ([.acquire .dmabuf, .acquire .attachment, .acquire .pin, .release .pin, .release .attachment,
        .release .dmabuf], false)
    | none, none, none, .ok sgt =>
      let calls := [.acquire .dmabuf, .acquire .attachment, .acquire .pin, .acquire .sgt]
      match sgFlattenToAddrs P sgt nPages offset with
      | .error _ => (calls ++ releaseDmabufMemoryCalls, false)
      | .ok _ => (calls, true)

/-- `map_dmabuf`. -/
def mapDmabufCalls (P : Nat) (env : DmabufEnv) (id : Nat) (current : Task) (pdev gpuPtr offset nPages
    capacity : Nat) : List (Op Res) :=
  if nPages < 1 then []
  else if !env.descriptor then []
  else
    let md := { createDescriptor id current pdev gpuPtr nPages gpuPtr with pageSize := P }
    let calls := mapDmabufMemoryCalls P env offset nPages capacity
    match mapDmabufMemory P env offset nPages capacity md with
    | (_, none) => calls.1
    | (md, some _) => calls.1 ++ unmapAndReleaseCalls md calls.2 releaseDmabufMemoryCalls

/-- The resources of a dma-buf mapping, the last one first. -/
def dmabufRes : List Res := [.sgt, .pin, .attachment, .dmabuf]

theorem releaseDmabuf_stack : stack dmabufRes releaseDmabufMemoryCalls = some [] := by decide

/-- What `map_dmabuf_memory` holds when it returns, and whether the callback would run. -/
theorem mapDmabufMemory_calls (P : Nat) (env : DmabufEnv) (offset nPages capacity : Nat) (map : Map) :
    let calls := mapDmabufMemoryCalls P env offset nPages capacity
    match mapDmabufMemory P env offset nPages capacity map with
    | (md, none) => stack [] calls.1 = some dmabufRes ∧ calls.2 = true ∧
        md.release = some .dmabufMemory ∧ md.id = map.id
    | (_, some _) => stack [] calls.1 = some [] ∧ calls.2 = false := by
  unfold mapDmabufMemoryCalls mapDmabufMemory
  split
  · exact ⟨rfl, rfl⟩
  split
  · exact ⟨rfl, rfl⟩
  cases env.get with
  | some e => exact ⟨rfl, rfl⟩
  | none =>
    cases env.attach with
    | some e => exact ⟨rfl, rfl⟩
    | none =>
      cases env.pin with
      | some e => exact ⟨rfl, rfl⟩
      | none =>
        cases env.mapAttachment with
        | error e => exact ⟨rfl, rfl⟩
        | ok sgt =>
          dsimp only
          cases sgFlattenToAddrs P sgt nPages offset with
          | error e => exact ⟨rfl, rfl⟩
          | ok addrs => exact ⟨rfl, rfl, rfl, rfl⟩

theorem mapDmabufCalls_ok {P : Nat} {env : DmabufEnv} {id : Nat} {current : Task}
    {pdev gpuPtr offset nPages capacity : Nat} {m : Map}
    (h : mapDmabuf P env id current pdev gpuPtr offset nPages capacity = .ok m) :
    stack [] (mapDmabufCalls P env id current pdev gpuPtr offset nPages capacity) = some dmabufRes ∧
      m.release = some .dmabufMemory ∧ m.id = id := by
  unfold mapDmabuf at h
  unfold mapDmabufCalls
  split at h
  · cases h
  split at h
  · cases h
  rename_i h1 h2
  rw [if_neg h1, if_neg h2]
  have hspec := mapDmabufMemory_calls P env offset nPages capacity
    { createDescriptor id current pdev gpuPtr nPages gpuPtr with pageSize := P }
  rcases hm : mapDmabufMemory P env offset nPages capacity
    { createDescriptor id current pdev gpuPtr nPages gpuPtr with pageSize := P } with ⟨md, o⟩
  simp only [hm] at h hspec ⊢
  cases o with
  | none =>
    cases h
    exact ⟨hspec.1, hspec.2.2⟩
  | some e => cases h

theorem mapDmabufCalls_error {P : Nat} {env : DmabufEnv} {id : Nat} {current : Task}
    {pdev gpuPtr offset nPages capacity : Nat} {e : Errno}
    (h : mapDmabuf P env id current pdev gpuPtr offset nPages capacity = .error e) :
    stack [] (mapDmabufCalls P env id current pdev gpuPtr offset nPages capacity) = some [] := by
  unfold mapDmabuf at h
  unfold mapDmabufCalls
  split
  · rfl
  rename_i h1
  rw [if_neg h1] at h
  split
  · rfl
  rename_i h2
  rw [if_neg h2] at h
  have hspec := mapDmabufMemory_calls P env offset nPages capacity
    { createDescriptor id current pdev gpuPtr nPages gpuPtr with pageSize := P }
  rcases hm : mapDmabufMemory P env offset nPages capacity
    { createDescriptor id current pdev gpuPtr nPages gpuPtr with pageSize := P } with ⟨md, o⟩
  simp only [hm] at h hspec ⊢
  cases o with
  | none => cases h
  | some e' =>
    simp only [unmapAndReleaseCalls, hspec.2, Bool.and_false, Bool.false_eq_true, if_false,
      List.append_nil]
    exact hspec.1

end Drv
end UGDS
