import UGDS.Drv.Module

/-!
# UGDS.Drv.Balance

What the calls of the kernel module take and give back, one function at a time.

A mapping that is made takes what `Map.resources` lists, one that fails gives back what it has taken,
and the release callback gives back what the mapping has. Each statement is about what the function
itself touches; `Lib.Leads.within` puts it into the module.

* `addPciDev_account`, `removePciDev_account`: controllers.
* `mapUserspace_account`, `mapDeviceMemory_account`, `dmabuf_account`: mappings.
* `releaseCalls_account`, `forceRelease_account`: their release.
-/

namespace UGDS
namespace Drv

open Lib Nvm Resource

/-! ## Controllers -/

section Ctrls

variable {max : BitVec 32} {s : CtrlState} {dev : Nat} {env : ProbeEnv} {cdevAdd : Bool}

/-- A probe below the limit adds a controller with all that belongs to it, or it fails and gives back
what it has taken. -/
theorem addPciDev_account (hlt : s.currCtrls.toInt < max.toInt)
    (hne : ∀ c ∈ s.ctrlList, c.pdev ≠ dev) :
    (s.addPciDev max dev env =
          (none, ⟨s.ctrlList ++ [⟨dev, s.currCtrls⟩], s.currCtrls + 1, s.bound⟩) ∧
        Leads ofDriver (addPciDevCalls max s dev env cdevAdd) (ofCtrl dev ++ ofDriver)) ∨
      ∃ e, s.addPciDev max dev env = (some e, s) ∧
        Leads ofDriver (addPciDevCalls max s dev env cdevAdd) ofDriver := by
  have hput : (s.ctrlGet ⟨dev, s.currCtrls⟩).ctrlPut ⟨dev, s.currCtrls⟩ = s :=
    CtrlState.ctrlPut_ctrlGet fun hmem => hne _ hmem rfl
  have hmax : ¬ max.toInt ≤ s.currCtrls.toInt := by omega
  simp only [CtrlState.addPciDev, addPciDevCalls, if_neg hmax]
  cases env.ctrl with
  | false => exact .inr ⟨_, rfl, .nil⟩
  | true =>
    simp only [Bool.not_true, Bool.false_eq_true, if_false, hput]
    rcases env.requestRegion with _ | e
    swap
    · refine .inr ⟨e, rfl, ?_⟩
      simp [ctrlPutCalls, Leads, account, Call.apply, Op.apply, needs, ofDriver, take, give]
    rcases env.enableDevice with _ | e
    swap
    · refine .inr ⟨e, rfl, ?_⟩
      simp [ctrlPutCalls, Leads, account, Call.apply, Op.apply, needs, ofDriver, take, give]
    rcases env.chrdevCreate with _ | e
    swap
    · refine .inr ⟨e, rfl, ?_⟩
      cases cdevAdd <;> simp [ctrlPutCalls, ctrlChrdevCreateCalls, Leads, account, Call.apply,
        Op.apply, needs, ofDriver, take, give]
    dsimp only
    split
    · refine .inr ⟨_, rfl, ?_⟩
      simp [ctrlPutCalls, ctrlChrdevCreateCalls, Leads, account, Call.apply, Op.apply, needs,
        ofDriver, take, give]
    · refine .inl ⟨rfl, ?_⟩
      simp [ctrlChrdevCreateCalls, Leads, account, Call.apply, Op.apply, needs, ofDriver, ofCtrl,
        take]

/-- The removal of a device that has a controller gives back all that belongs to it. -/
theorem removePciDev_account {c : Ctrl} (hf : s.ctrlFindByPciDev dev = some c) :
    Leads (ofCtrl dev ++ ofDriver) (removePciDevCalls s dev) ofDriver := by
  simp [removePciDevCalls, hf, ctrlPutCalls, Leads, account, Call.apply, Op.apply, needs, ofDriver,
    ofCtrl, give]

end Ctrls

/-! ## Mappings -/

section Maps

variable {id pdev : Nat} {r : Resource} {l l' : List Resource} {cs : List (Call Resource)}
  {rs : List Res}

theorem leads_take (hn : ∀ x ∈ r.needs, x ∈ l) (h : Leads (r :: l) cs l') :
    Leads l (r.take :: cs) l' := Leads.acquire hn h

theorem leads_give (hn : ∀ x ∈ r.needs, x ∈ r :: l) (h : Leads l cs l') :
    Leads (r :: l) (r.give :: cs) l' :=
  Leads.release hn List.mem_cons_self (by rwa [List.erase_cons_head])

theorem acquires_account (hn : ∀ r ∈ rs, ∀ x ∈ (mapped id pdev r).needs, x ∈ l) :
    Leads l ((rs.map Op.acquire).map (call id pdev)) (rs.map (mapped id pdev) ++ l) := by
  have h : Leads l ((rs.map (mapped id pdev)).map fun r => ⟨r.needs, some (.acquire r)⟩) _ :=
    Leads.acquires (by simpa using hn)
  rwa [List.map_map] at h ⊢

theorem releases_account (hn : ∀ r ∈ rs, ∀ x ∈ (mapped id pdev r).needs, x ∈ l) :
    Leads (rs.map (mapped id pdev) ++ l) ((rs.map Op.release).map (call id pdev)) l := by
  have h : Leads _ ((rs.map (mapped id pdev)).map fun r => ⟨r.needs, some (.release r)⟩) l :=
    Leads.releases (by simpa using hn)
  rwa [List.map_map] at h ⊢

end Maps

/-! ### Host memory -/

section Host

variable {P : Nat} {env : HostEnv} {id : Nat} {current : Task} {pdev vaddr nPages : Nat}
  {l : List Resource} {gd : Nat → List P2pMapping}

/-- `dma_map_page` fails for none of the pages that `get_user_pages` has pinned. -/
def HostEnv.MapsAll (P : Nat) (env : HostEnv) (vaddr : Nat) : Prop :=
  match env.getUserPages with
  | .ok n => (dmaMapPages env (mask 64 vaddr P / P) n).2 = none
  | .error _ => True

instance (P : Nat) (env : HostEnv) (vaddr : Nat) : Decidable (env.MapsAll P vaddr) :=
  match h : env.getUserPages with
  | .ok n =>
    decidable_of_iff ((dmaMapPages env (mask 64 vaddr P / P) n).2 = none)
      (by simp [HostEnv.MapsAll, h])
  | .error _ => .isTrue (by simp [HostEnv.MapsAll, h])

theorem dmaMapPagesCalls_all (pdev : Nat) {page n : Nat} (h : (dmaMapPages env page n).2 = none) :
    dmaMapPagesCalls env pdev page n =
      ((dmaMapPages env page n).1.map (Res.dmaPage pdev)).map .acquire := by
  induction n generalizing page with
  | zero => rfl
  | succ n ih =>
    simp only [dmaMapPages, dmaMapPagesCalls] at h ⊢
    cases hp : env.dmaMappingError page with
    | some e => simp [hp] at h
    | none =>
      simp only [hp] at h
      exact congrArg _ (ih h)

/-- `map_user_pages` pins and maps all pages, or it stops before the first one. -/
theorem mapUserPagesCalls_all {map : Map} (hrel : map.release = none)
    (hall : ∀ n, env.getUserPages = .ok n → (dmaMapPages env (map.vaddr / P) n).2 = none) :
    let md := (mapUserPages P env map).1
    let calls := (mapUserPagesCalls P env map).1
    md.id = map.id ∧ md.pdev = map.pdev ∧
      ((md.release = none ∧ calls = []) ∨
        (mapUserPages P env map).2 = none ∧ md.release = some .userPages ∧
          calls = (md.pages.map Res.userPage ++ md.addrs.map (Res.dmaPage md.pdev)).map .acquire) := by
  unfold mapUserPages mapUserPagesCalls
  split
  · exact ⟨rfl, rfl, .inl ⟨hrel, rfl⟩⟩
  rcases hn : env.getUserPages with e | _ | n
  · exact ⟨rfl, rfl, .inl ⟨hrel, rfl⟩⟩
  · exact ⟨rfl, rfl, .inl ⟨hrel, rfl⟩⟩
  · have hmap := hall (n + 1) hn
    refine ⟨rfl, rfl, .inr ⟨hmap, rfl, ?_⟩⟩
    simp [dmaMapPagesCalls_all map.pdev hmap, Function.comp_def]

theorem userPages_needs {addrs : List (BitVec 64)} {pages : List Nat} (hen : enabled pdev ∈ l) :
    ∀ r ∈ addrs.map (Res.dmaPage pdev) ++ pages.map Res.userPage,
      ∀ x ∈ (mapped id pdev r).needs, x ∈ l := by
  intro r hr x hx
  rcases List.mem_append.mp hr with hr | hr
  · obtain ⟨a, -, rfl⟩ := List.mem_map.mp hr
    rwa [List.mem_singleton.mp hx]
  · obtain ⟨p, -, rfl⟩ := List.mem_map.mp hr
    cases hx

/-- A mapping that is made takes what it has; one that fails takes nothing. -/
theorem mapUserspace_account (hall : env.MapsAll P vaddr) (hen : enabled pdev ∈ l) :
    let calls := (mapUserspaceCalls P env id current pdev vaddr nPages).map (call id pdev)
    match mapUserspace P env id current pdev vaddr nPages with
    | .ok m => m.id = id ∧ m.pdev = pdev ∧ m.release ≠ some .gpuMemory ∧
        Leads l calls (m.resources gd ++ l)
    | .error _ => Leads l calls l := by
  unfold mapUserspace mapUserspaceCalls
  by_cases h1 : nPages < 1
  · simp only [if_pos h1]
    exact .nil
  by_cases h2 : (!env.descriptor) = true
  · simp only [if_neg h1, if_pos h2]
    exact .nil
  simp only [if_neg h1, if_neg h2]
  generalize hmd : ({ createDescriptor id current pdev (mask 64 vaddr P) nPages vaddr with
    pageSize := P } : Map) = map
  have hid : map.id = id := by rw [← hmd]; rfl
  have hpdev : map.pdev = pdev := by rw [← hmd]; rfl
  have hrel : map.release = none := by rw [← hmd]; rfl
  have hpages : ∀ n, env.getUserPages = .ok n → (dmaMapPages env (map.vaddr / P) n).2 = none := by
    intro n hn
    rw [HostEnv.MapsAll, hn] at hall
    rw [← hmd]
    exact hall
  have hspec := mapUserPagesCalls_all hrel hpages
  rcases hm : mapUserPages P env map with ⟨md, o⟩
  simp only [hm, hid, hpdev] at hspec ⊢
  obtain ⟨rfl, rfl, ⟨hr, hcalls⟩ | ⟨ho, hr, hcalls⟩⟩ := hspec
  · cases o with
    | none =>
      refine ⟨rfl, rfl, by simp [hr], ?_⟩
      simp [hcalls, Map.resources, hr, Leads.nil]
    | some e => simp [hcalls, unmapAndReleaseCalls, hr, Leads.nil]
  · subst ho
    refine ⟨rfl, rfl, by simp [hr], ?_⟩
    rw [hcalls]
    refine (acquires_account ?_).perm ?_
    · intro r hr
      exact userPages_needs hen r (List.perm_append_comm.mem_iff.mp hr)
    · simp only [Map.resources, hr]
      exact (List.perm_append_comm.map _).append_right l

end Host

/-! ### GPU memory -/

section Gpu

variable {env : GpuEnv} {ctrls : List Ctrl} {id : Nat} {current : Task} {pdev vaddr nPages : Nat}
  {l : List Resource} {gd : Nat → List P2pMapping} {made : List P2pMapping}

/-- The page table and its mappings for the controllers. -/
def p2pRes (made : List P2pMapping) : List Res :=
  made.map (fun x => Res.p2pMapping x.pdev x) ++ [.p2pPages]

theorem p2p_needs (hen : ∀ m ∈ made, enabled m.pdev ∈ l) :
    ∀ r ∈ made.map (fun x => Res.p2pMapping x.pdev x), ∀ x ∈ (mapped id pdev r).needs,
      x ∈ mapped id pdev .p2pPages :: l := by
  intro r hr x hx
  obtain ⟨m, hm, rfl⟩ := List.mem_map.mp hr
  rcases List.mem_cons.mp hx with rfl | hx
  · exact List.mem_cons_self
  · rw [List.mem_singleton.mp hx]
    exact List.mem_cons_of_mem _ (hen m hm)

theorem p2p_takes (hen : ∀ m ∈ made, enabled m.pdev ∈ l) :
    Leads l ((Op.acquire Res.p2pPages :: made.map fun m => .acquire (.p2pMapping m.pdev m)).map
      (call id pdev)) ((p2pRes made).map (mapped id pdev) ++ l) := by
  have hall := acquires_account (@p2p_needs id pdev l made hen)
  refine leads_take (by simp [needs]) ?_
  simpa [p2pRes, Function.comp_def] using hall

theorem p2p_gives (hen : ∀ m ∈ made, enabled m.pdev ∈ l) :
    Leads ((p2pRes made).map (mapped id pdev) ++ l)
      ((made.map (fun m : P2pMapping => Op.release (Res.p2pMapping m.pdev m)) ++
        [Op.release Res.p2pPages]).map (call id pdev)) l := by
  have hall := releases_account (@p2p_needs id pdev l made hen)
  have hpages : Leads (mapped id pdev .p2pPages :: l) [(mapped id pdev .p2pPages).give] l :=
    leads_give (by simp [needs]) .nil
  simpa [p2pRes, Function.comp_def, call] using hall.append hpages

/-- The walk of the release, when the controllers that the mappings were made for still come first. -/
theorem releaseGpuMemoryCalls_all (hord : made.map P2pMapping.pdev <+: ctrls.map Ctrl.pdev)
    (hfew : ctrls.length ≤ maxNumCtrls) :
    releaseGpuMemoryCalls (filled made) true ctrls =
      some (made.map (fun m => .release (.p2pMapping m.pdev m)) ++ [.release .p2pPages]) := by
  have hlen : made.length ≤ ctrls.length := by simpa using hord.length_le
  have hin : ¬ (made.length = maxNumCtrls ∧ maxNumCtrls < ctrls.length) := by omega
  rw [releaseGpuMemoryCalls, unmapMappings_all (by omega), if_neg hin, Option.map_some,
    zip_own made _ hord]
  rfl

theorem mapDeviceMemory_reaches {nCtrls : Nat} {m : Map}
    (h : mapDeviceMemory env nCtrls id current pdev vaddr nPages = .ok m) : env.Reaches nPages := by
  have hm := mapDeviceMemory_made h
  simp only [mapDeviceMemory] at h
  split at h
  · cases h
  split at h
  · cases h
  rename_i hn hd
  simp only [mapGpuMemory] at h
  split at h
  · rename_i hmade
    split at hmade
    · cases hmade
    · rename_i hrm
      obtain ⟨entries, -, hpages, -⟩ := hm
      simp only [Bool.not_eq_true', Bool.or_eq_true, not_or, Bool.not_eq_false] at hd hrm
      exact ⟨by omega, hd, hrm.1, hrm.2, entries, hpages⟩
  · cases h

/-- A mapping that is made takes the page table and a mapping for each controller; one that fails
gives back what it has taken. -/
theorem mapDeviceMemory_account (hfew : ctrls.length ≤ maxNumCtrls)
    (hen : ∀ c ∈ ctrls, enabled c.pdev ∈ l) (hgd : gd id = (created env ctrls 0).1) :
    let calls := walkCalls id pdev (mapDeviceMemoryCalls env ctrls id current pdev vaddr nPages)
    match mapDeviceMemory env ctrls.length id current pdev vaddr nPages with
    | .ok m => m.id = id ∧ m.pdev = pdev ∧ m.release = some .gpuMemory ∧
        Leads l calls (m.resources gd ++ l)
    | .error _ => Leads l calls l := by
  have hen' : ∀ m ∈ (created env ctrls 0).1, enabled m.pdev ∈ l := by
    intro m hm
    obtain ⟨c, hc, heq⟩ := List.mem_map.mp
      ((created_pdev env ctrls 0).subset (List.mem_map_of_mem hm))
    exact heq ▸ hen c hc
  by_cases hr : env.Reaches nPages
  swap
  · rw [mapDeviceMemoryCalls_unreached hr]
    cases hm : mapDeviceMemory env ctrls.length id current pdev vaddr nPages with
    | error e => exact .nil
    | ok m => exact absurd (mapDeviceMemory_reaches hm) hr
  obtain ⟨entries, hp⟩ := hr.entries
  have herr := created_err env
    (mask 64 vaddr GPU_PAGE_SIZE / GPU_PAGE_SIZE) nPages ctrls 0 (List.replicate nPages 0#64)
  have hlen : (created env ctrls 0).1.length ≤ maxNumCtrls := by
    have := (created_pdev env ctrls 0).length_le
    simp only [List.length_map] at this
    omega
  unfold mapDeviceMemoryCalls mapDeviceMemory mapGpuMemoryCalls mapGpuMemory
  simp only [if_neg (Nat.not_lt.mpr hr.pages), hr.descriptor, hr.region, hr.mappings, hp,
    createDescriptor, List.length_replicate, Bool.not_true, Bool.or_self, Bool.false_eq_true,
    if_false, storeMappings_all, if_pos hlen, Option.map_some]
  rcases mapControllers env (mask 64 vaddr GPU_PAGE_SIZE / GPU_PAGE_SIZE) nPages 0
      ctrls.length (List.replicate nPages 0#64) with ⟨addrs, _ | e⟩
  · refine ⟨rfl, rfl, rfl, ?_⟩
    simp only [Map.resources, hgd]
    exact p2p_takes hen'
  · simp only [releaseGpuMemoryCalls_all (created_pdev env ctrls 0) hfew, Option.map_some,
      unmapAndReleaseCalls, Option.isSome_some, Bool.and_self, if_true]
    rw [walkCalls, List.map_append]
    exact (p2p_takes hen').append (p2p_gives hen')

end Gpu

/-! ### dma-buf memory -/

section Dmabuf

variable {P : Nat} {k : KState} {current : Task} {pdev : Nat} {copyOut : Bool} {req : DmabufReq}
  {env : DmabufEnv} {id : Nat} {l : List Resource} {gd : Nat → List P2pMapping}

theorem releaseDmabuf_resource : ∀ o ∈ releaseDmabufMemoryCalls, o.resource ∈ dmabufRes := by
  decide

theorem mapDmabufMemory_resource (P : Nat) (env : DmabufEnv) (offset nPages capacity : Nat) :
    ∀ o ∈ (mapDmabufMemoryCalls P env offset nPages capacity).1, o.resource ∈ dmabufRes := by
  unfold mapDmabufMemoryCalls
  split
  · simp
  split
  · simp
  split
  · simp
  · decide
  · decide
  · decide
  · dsimp only
    split <;> decide

theorem unmapAndRelease_resource {m : Map} {data : Bool} :
    ∀ o ∈ unmapAndReleaseCalls m data releaseDmabufMemoryCalls, o.resource ∈ dmabufRes := by
  unfold unmapAndReleaseCalls
  split
  · exact releaseDmabuf_resource
  · simp

/-- A dma-buf request touches dma-buf resources only. -/
theorem dmabufCalls_resource (copyIn : Bool) :
    ∀ o ∈ dmabufCalls P k current pdev copyIn copyOut req env, o.resource ∈ dmabufRes := by
  have hmap : ∀ offset nPages capacity, ∀ o ∈ mapDmabufCalls P env k.nextId current pdev req.gpuPtr
      offset nPages capacity, o.resource ∈ dmabufRes := by
    intro offset nPages capacity
    unfold mapDmabufCalls
    split
    · simp
    split
    · simp
    dsimp only
    split
    · exact mapDmabufMemory_resource P env offset nPages capacity
    · exact List.forall_mem_append.mpr
        ⟨mapDmabufMemory_resource P env offset nPages capacity, unmapAndRelease_resource⟩
  unfold dmabufCalls
  split
  · simp
  split
  · simp
  dsimp only
  split
  · exact hmap _ _ _
  · refine List.forall_mem_append.mpr ⟨hmap _ _ _, ?_⟩
    unfold insertDmabufCalls
    split
    · exact unmapAndRelease_resource
    split
    · exact unmapAndRelease_resource
    split
    · simp
    · exact unmapAndRelease_resource

/-- Calls on dma-buf resources that give back what was taken last first. -/
theorem dmabuf_stack_account {ops : List (Op Res)} {s s' : List Res} (hen : enabled pdev ∈ l)
    (hres : ∀ o ∈ ops, o.resource ∈ dmabufRes) (h : stack s ops = some s') :
    Leads (s.map (mapped id pdev) ++ l) (ops.map (call id pdev)) (s'.map (mapped id pdev) ++ l) := by
  have hcall : call id pdev =
      fun o => ⟨(mapped id pdev o.resource).needs, some (o.map (mapped id pdev))⟩ := by
    funext o
    cases o <;> rfl
  have hneeds : ∀ r ∈ dmabufRes, ∀ x ∈ (mapped id pdev r).needs, x ∈ l := by
    simp [dmabufRes, needs, hen]
  rw [hcall]
  exact Leads.of_stack (mapped id pdev) (fun o ho => hneeds _ (hres o ho)) h

/-- A new dma-buf mapping is one for the controller of the request. -/
theorem dmabuf_pdev (copyIn : Bool) {m : Map}
    (h : (k.mapIoctl P current pdev (.mapDmabuf copyIn copyOut req env)).k.deviceList =
      k.deviceList ++ [m]) : m.pdev = pdev := by
  have hnot : k.deviceList ≠ k.deviceList ++ [m] := by simp
  cases copyIn with
  | false => exact absurd h hnot
  | true =>
    by_cases hrej : req.Rejected P
    · rw [mapIoctl_dmabuf_rejected hrej] at h
      exact absurd h hnot
    rw [mapIoctl_dmabuf_accepted hrej] at h
    split at h
    · exact absurd h hnot
    rename_i m' hm
    obtain ⟨sgt, addrs, -, hmade⟩ := mapDmabuf_made hm
    unfold KState.insertDmabuf at h
    split at h
    · exact absurd h hnot
    split at h
    · exact absurd h hnot
    split at h
    · simp only [List.append_cancel_left_eq, List.cons.injEq, and_true] at h
      rw [← h, hmade]
      rfl
    · exact absurd h hnot

/-- A dma-buf mapping that is made takes what it has; a request that fails gives everything back. -/
theorem dmabuf_account (copyIn : Bool) (hen : enabled pdev ∈ l) :
    let r := k.mapIoctl P current pdev (.mapDmabuf copyIn copyOut req env)
    let calls := walkCalls k.nextId pdev (some (dmabufCalls P k current pdev copyIn copyOut req env))
    r.k.hostList = k.hostList ∧
      ((∃ m, m.id = k.nextId ∧ m.pdev = pdev ∧ m.release = some .dmabufMemory ∧
          r.k.deviceList = k.deviceList ++ [m] ∧ Leads l calls (m.resources gd ++ l)) ∨
        r.k.deviceList = k.deviceList ∧ Leads l calls l) := by
  have hacc := fun s' => @dmabuf_stack_account pdev k.nextId l
    (dmabufCalls P k current pdev copyIn copyOut req env) [] s' hen (dmabufCalls_resource copyIn)
  obtain ⟨hhost, ⟨m, hr, hid, -, hdev, hst⟩ | ⟨-, hdev, hst⟩⟩ :=
    @dmabuf_calls_stack P k current pdev copyOut req env copyIn
  · have hpdev := dmabuf_pdev copyIn hdev
    refine ⟨hhost, .inl ⟨m, hid, hpdev, hr, hdev, ?_⟩⟩
    simp only [Map.resources, hr, hid, hpdev]
    exact hacc dmabufRes hst
  · exact ⟨hhost, .inr ⟨hdev, hacc [] hst⟩⟩

end Dmabuf

/-! ### Release -/

section Release

variable {t : Module} {m : Map} {l : List Resource}

/-- The devices of a mapping have their controllers, for GPU memory in the order in which it was
mapped. -/
def Module.Reaches (t : Module) (m : Map) : Prop :=
  match m.release with
  | some .gpuMemory => t.devices m <+: t.c.ctrlList.map Ctrl.pdev
  | _ => ∀ d ∈ t.devices m, d ∈ t.c.ctrlList.map Ctrl.pdev

/-- The release callback gives back what the mapping has. -/
theorem releaseCalls_account (hr : t.Reaches m) (hfew : t.c.ctrlList.length ≤ maxNumCtrls)
    (hen : ∀ d ∈ t.c.ctrlList.map Ctrl.pdev, enabled d ∈ l) :
    Leads (m.resources t.gd ++ l) (t.releaseCalls m) l := by
  unfold Module.releaseCalls Map.resources
  unfold Module.Reaches Module.devices at hr
  rcases hrel : m.release with _ | _ | _ | _
  · exact .nil
  · simp only [hrel] at hr ⊢
    have hpdev := hen m.pdev (hr m.pdev (List.mem_singleton_self _))
    have hcalls : releaseUserPagesCalls m =
        (m.addrs.map (Res.dmaPage m.pdev) ++ m.pages.map Res.userPage).map .release := by
      simp [releaseUserPagesCalls, Function.comp_def]
    rw [hcalls]
    exact releases_account (userPages_needs hpdev)
  · simp only [hrel] at hr ⊢
    rw [releaseGpuMemoryCalls_all hr hfew]
    refine p2p_gives ?_
    intro x hx
    exact hen x.pdev (hr.subset (List.mem_map_of_mem hx))
  · simp only [hrel] at hr ⊢
    have hpdev := hen m.pdev (hr m.pdev (List.mem_singleton_self _))
    exact dmabuf_stack_account hpdev releaseDmabuf_resource releaseDmabuf_stack

/-- So does the NVIDIA driver's callback, and `unmap_and_release` then runs nothing. -/
theorem forceRelease_account (hrel : m.release = some .gpuMemory) (hr : t.Reaches m)
    (hfew : t.c.ctrlList.length ≤ maxNumCtrls)
    (hen : ∀ d ∈ t.c.ctrlList.map Ctrl.pdev, enabled d ∈ l) :
    Leads (m.resources t.gd ++ l) (t.forceReleaseGpuMemoryCalls m) l := by
  have h := releaseCalls_account hr hfew hen
  have hcalls : t.forceReleaseGpuMemoryCalls m = t.releaseCalls m := by
    simp [Module.forceReleaseGpuMemoryCalls, Module.releaseCalls, hrel, unmapAndReleaseCalls]
  rwa [hcalls]

end Release

end Drv
end UGDS
