import UGDS.Drv.Failed

/-!
# UGDS.Drv.CtrlAddrs

Whose DMA addresses a request for GPU memory gets (`map_gpu_memory`, `drv/map.c`).

`nvidia_p2p_dma_map_pages` is called for every controller of `ctrl_list` and gives each its own
addresses. The loop copies those of its first turn to `map->addrs`, whichever controller the request
came through.

* `mapControllers_made`: the addresses are the first controller's.
* `device_addrs_exact`: when a request gets the addresses of its own controller.
* `device_addrs_first`: two controllers, and a request through the second.
-/

namespace UGDS
namespace Drv

open Lib Nvm

/-- The number of the GPU page that a request starts with. -/
def gpuPage (vaddr : Nat) : Nat := mask 64 vaddr GPU_PAGE_SIZE / GPU_PAGE_SIZE

/-- A request through the `i`-th controller `c` stays inside `gd->mappings`, and if it succeeds, the
caller gets the addresses of `c`'s own mapping, for every page. -/
def GetsOwn (P : Nat) (s : Kernel) (current : Task) (i : Nat) (c : Ctrl) (copyIn copyOut : Bool)
    (vaddr nPages : Nat) (env : GpuEnv) : Prop :=
  let r := s.k.mapIoctl P current c.pdev (.mapDevice copyIn copyOut vaddr nPages env)
  (∃ calls, mapIoctlCalls P s current c.pdev (.device copyIn copyOut vaddr nPages env) = some calls) ∧
    (r.err = none → ∃ D, env.dmaMapPages i = .ok D ∧
      ∀ p < nPages, r.out[p]? = some (D (gpuPage vaddr + p)))

/-- The page table has an entry for every page, and the first controller has got the same addresses
for them as the `i`-th. -/
def SharesFirst (i vaddr nPages : Nat) (env : GpuEnv) : Prop :=
  (∀ entries, env.getPages nPages = .ok entries → nPages ≤ entries) ∧
    ∀ D₀ D, env.dmaMapPages 0 = .ok D₀ → env.dmaMapPages i = .ok D →
      ∀ p < nPages, D₀ (gpuPage vaddr + p) = D (gpuPage vaddr + p)

/-! ## The loop over the controllers -/

section Loop

variable {env : GpuEnv} {page nAddrs : Nat} {addrs addrs' : List (BitVec 64)}

/-- After the first turn the addresses stay. -/
theorem mapControllers_rest {n j : Nat} (hj : j ≠ 0)
    (h : mapControllers env page nAddrs j n addrs = (addrs', none)) :
    addrs' = addrs ∧ ∀ i, j ≤ i → i < j + n → ∃ D, env.dmaMapPages i = .ok D := by
  induction n generalizing j with
  | zero =>
    cases h
    exact ⟨rfl, fun i hi hlt => by omega⟩
  | succ n ih =>
    simp only [mapControllers, if_neg hj] at h
    split at h
    · cases h
    · rename_i D hD
      obtain ⟨rfl, hrest⟩ := ih (Nat.succ_ne_zero j) h
      refine ⟨rfl, fun i hi hlt => ?_⟩
      by_cases he : i = j
      · exact ⟨D, by rw [he, hD]⟩
      · exact hrest i (by omega) (by omega)

/-- A loop over at least one controller that gets through: the first controller's addresses, and
every controller has a mapping. -/
theorem mapControllers_made {n : Nat} (hn : 0 < n)
    (h : mapControllers env page nAddrs 0 n addrs = (addrs', none)) :
    ∃ D₀, env.dmaMapPages 0 = .ok D₀ ∧
      addrs' = (List.range nAddrs).map (fun i => D₀ (page + i)) ∧
      ∀ i < n, ∃ D, env.dmaMapPages i = .ok D := by
  obtain ⟨m, rfl⟩ := Nat.exists_eq_succ_of_ne_zero hn.ne'
  simp only [mapControllers, if_true] at h
  split at h
  · cases h
  · rename_i D₀ hD
    obtain ⟨rfl, hrest⟩ := mapControllers_rest Nat.one_ne_zero h
    refine ⟨D₀, hD, rfl, fun i hi => ?_⟩
    by_cases he : i = 0
    · exact ⟨D₀, by rw [he, hD]⟩
    · exact hrest i (by omega) (by omega)

end Loop

/-! ## The request -/

section Request

variable {P : Nat} {s : Kernel} {current : Task} {i : Nat} {c : Ctrl} {copyIn copyOut : Bool}
  {vaddr nPages : Nat} {env : GpuEnv}

/-- When the calls of a request stay inside `gd->mappings`. -/
theorem device_calls_defined (pdev : Nat) :
    (∃ calls, mapIoctlCalls P s current pdev (.device copyIn copyOut vaddr nPages env) = some calls) ↔
      (copyIn = true → env.Reaches nPages → env.InBounds s.ctrls) := by
  cases copyIn with
  | false => simp [mapIoctlCalls]
  | true =>
    simp only [mapIoctlCalls, Bool.not_true, Bool.false_eq_true, if_false, true_implies]
    rcases mapDeviceMemoryCalls_spec env s.ctrls s.k.nextId current pdev vaddr nPages with
      ⟨hout, hnone⟩ | ⟨hin, calls, hcalls, -⟩
    · simp [hnone, hout]
    · exact iff_of_true ⟨calls, hcalls⟩ hin

/-- What a request that succeeds has copied to its caller. -/
theorem device_out {pdev : Nat} (hne : s.ctrls ≠ [])
    (h : (s.k.mapIoctl P current pdev (.mapDevice copyIn copyOut vaddr nPages env)).err = none) :
    ∃ entries D₀, env.getPages nPages = .ok entries ∧ env.dmaMapPages 0 = .ok D₀ ∧
      (s.k.mapIoctl P current pdev (.mapDevice copyIn copyOut vaddr nPages env)).out =
        ((List.range nPages).map fun p => D₀ (gpuPage vaddr + p)).take entries ∧
      ∀ i < s.ctrls.length, ∃ D, env.dmaMapPages i = .ok D := by
  obtain ⟨m, hm, -, hout⟩ := KState.mapIoctl_device_ok h
  obtain ⟨entries, addrs, hentries, hctrls, rfl⟩ := mapDeviceMemory_made hm
  rw [← s.length_eq] at hctrls
  obtain ⟨D₀, hD₀, rfl, hall⟩ := mapControllers_made (List.length_pos_iff.mpr hne) hctrls
  exact ⟨entries, D₀, hentries, hD₀, hout, hall⟩

end Request

/-- For every list of controllers and every request through one of them: the caller gets the
addresses of its own controller exactly if the loop stays inside `gd->mappings` and, when the request
succeeds, they are the same as the first controller's. -/
theorem device_addrs_exact (P : Nat) (s : Kernel) (current : Task) {i : Nat} {c : Ctrl}
    (hi : s.ctrls[i]? = some c) (copyIn copyOut : Bool) (vaddr nPages : Nat) (env : GpuEnv) :
    GetsOwn P s current i c copyIn copyOut vaddr nPages env ↔
      (copyIn = true → env.Reaches nPages → env.InBounds s.ctrls) ∧
        ((s.k.mapIoctl P current c.pdev (.mapDevice copyIn copyOut vaddr nPages env)).err = none →
          SharesFirst i vaddr nPages env) := by
  unfold GetsOwn
  simp only [device_calls_defined]
  refine and_congr_right fun _ => forall_congr' fun hok => ?_
  have hlt : i < s.ctrls.length := (List.getElem?_eq_some_iff.mp hi).1
  obtain ⟨entries, D₀, hentries, hD₀, hout, hall⟩ :=
    device_out (List.length_pos_iff.mp (Nat.zero_lt_of_lt hlt)) hok
  obtain ⟨D, hD⟩ := hall i hlt
  rw [hout]
  have hget {p : Nat} (hp : p < nPages) :
      (((List.range nPages).map fun p => D₀ (gpuPage vaddr + p)).take entries)[p]? =
        if p < entries then some (D₀ (gpuPage vaddr + p)) else none := by
    rw [List.getElem?_take]
    simp [hp]
  constructor
  · rintro ⟨D', hD', hown⟩
    obtain rfl : D = D' := Except.ok.inj (hD.symm.trans hD')
    refine ⟨fun entries' he => ?_, fun D₁ D₂ h₁ h₂ p hp => ?_⟩
    · -- a page table with fewer entries has no address for page `entries`
      obtain rfl : entries = entries' := Except.ok.inj (hentries.symm.trans he)
      by_contra hn
      have hp : entries < nPages := Nat.lt_of_not_le hn
      have := hown entries hp
      rw [hget hp, if_neg (Nat.lt_irrefl _)] at this
      cases this
    · obtain rfl : D₀ = D₁ := Except.ok.inj (hD₀.symm.trans h₁)
      obtain rfl : D = D₂ := Except.ok.inj (hD.symm.trans h₂)
      have := hown p hp
      rw [hget hp] at this
      split at this
      · exact Option.some.inj this
      · cases this
  · rintro ⟨hfull, hsame⟩
    refine ⟨D, hD, fun p hp => ?_⟩
    rw [hget hp, if_pos (hp.trans_le (hfull entries hentries)), hsame D₀ D hD₀ hD p hp]

/-! ## Two controllers -/

/-- Each controller has addresses of its own. -/
def ownArrays : GpuEnv :=
  ⟨true, true, true, .ok, fun j => .ok fun p => BitVec.ofNat 64 (2 ^ 40 * (j + 1) + 65536 * p)⟩

/-- The module with two controllers. -/
def twoCtrls : Kernel := ⟨.init 2, [⟨7, 0⟩, ⟨8, 1⟩], rfl⟩

/-- A request through the first controller. -/
theorem device_addrs_exact_first :
    GetsOwn 4096 twoCtrls ⟨1, 1⟩ 0 ⟨7, 0⟩ true true 0x200000 3 ownArrays := by
  refine (device_addrs_exact 4096 twoCtrls ⟨1, 1⟩ rfl true true 0x200000 3 ownArrays).mpr
    ⟨fun _ _ => .inl (by decide), fun _ => ⟨fun entries h => ?_, fun D₀ D h₀ h p _ => ?_⟩⟩
  · cases h
    exact Nat.le_refl 3
  · rw [Except.ok.inj (h₀.symm.trans h)]

/-- A request through the second controller gets the addresses of the first one's mapping. -/
theorem device_addrs_first :
    ¬ ∀ (P : Nat) (s : Kernel) (current : Task) (i : Nat) (c : Ctrl), s.ctrls[i]? = some c →
      ∀ (copyIn copyOut : Bool) (vaddr nPages : Nat) (env : GpuEnv),
        GetsOwn P s current i c copyIn copyOut vaddr nPages env := by
  intro h
  obtain ⟨-, hown⟩ := h 4096 twoCtrls ⟨1, 1⟩ 1 ⟨8, 1⟩ rfl true true 0x200000 1 ownArrays
  obtain ⟨D, hD, hout⟩ := hown (by decide +kernel)
  cases hD
  exact absurd (hout 0 Nat.one_pos) (by decide +kernel)

end Drv
end UGDS
