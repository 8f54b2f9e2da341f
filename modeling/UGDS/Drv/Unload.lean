import UGDS.Drv.Balance
import UGDS.Lib.Steps

/-!
# UGDS.Drv.Unload

The kernel module over whole runs: loads, probes, removals, ioctls, callbacks of the NVIDIA driver and
unloads in any order.

`Inv` says what the lists of a reachable state look like, and that everything taken from the kernel and
not given back is what the lists say. Three kinds of steps change the mappings (`moved_keep`,
`moved_add`, `moved_remove`), one removes a controller (`removePciDev_inv`), and unloading is a loop of
each kind.

* `step_inv`: every regular step keeps the invariant.
* `module_gives_back`: in every state of a regular run exactly what the module should have is held, and
  an unloaded module has nothing.
-/

namespace UGDS
namespace Drv

open Lib Nvm Resource

namespace Module

/-- The condition on a step: `max_num_ctrls` is not reached when a device is probed, a device is
removed when no mapping uses it, and no page that was pinned for a host mapping fails to be mapped. -/
def Regular (max : BitVec 32) (P : Nat) (t : Module) : Label → Prop
  | .probe _ _ _ => t.c.currCtrls.toInt < max.toInt
  | .remove dev => ∀ m ∈ t.k.all, dev ∉ t.devices m
  | .ioctl ⟨_, _, .mapHost _ _ vaddr _ env⟩ => env.MapsAll P vaddr
  | _ => True

instance (max : BitVec 32) (P : Nat) (t : Module) : ∀ l, Decidable (t.Regular max P l)
  | .load .. => .isTrue trivial
  | .probe .. => inferInstanceAs (Decidable (t.c.currCtrls.toInt < max.toInt))
  | .remove dev => inferInstanceAs (Decidable (∀ m ∈ t.k.all, dev ∉ t.devices m))
  | .ioctl ⟨_, _, .mapHost _ _ vaddr _ env⟩ => inferInstanceAs (Decidable (env.MapsAll P vaddr))
  | .ioctl ⟨_, _, .mapDevice ..⟩ => .isTrue trivial
  | .ioctl ⟨_, _, .mapDmabuf ..⟩ => .isTrue trivial
  | .ioctl ⟨_, _, .unmap ..⟩ => .isTrue trivial
  | .reclaim _ => .isTrue trivial
  | .unload => .isTrue trivial

/-- The controllers are counted, fit the arrays of GPU mappings and are those of the bound devices; the
devices of every mapping have controllers; what is held is what the module should have. -/
structure Inv (t : Module) : Prop where
  listed : t.c.Listed
  count : t.c.currCtrls.toInt = t.c.ctrlList.length
  few : t.c.ctrlList.length ≤ maxNumCtrls
  served : ∀ d ∈ t.c.bound, d ∈ t.c.ctrlList.map Ctrl.pdev
  lists : t.k.Inv
  reaches : ∀ m ∈ t.k.all, t.Reaches m
  unloaded : t.loaded = false → t.c.ctrlList = [] ∧ t.k.all = []
  account : Leads [] t.log t.held

section

variable {t : Module} {m : Map} {k : KState} {gd : Nat → List P2pMapping}
  {calls : List (Call Resource)} {dev : Nat}

theorem init_inv : init.Inv := by
  refine ⟨CtrlState.init_listed, rfl, by decide, ?_, ⟨?_, ?_, ?_⟩, ?_, fun _ => ⟨rfl, rfl⟩, rfl⟩
  · simp [init, CtrlState.init]
  · simp [init, KState.init, KState.all]
  · simp [init, KState.init, KState.all]
  · simp [init, KState.init, KState.all]
  · simp [init, KState.init, KState.all]

theorem enabled_mem {d : Nat} (h : d ∈ t.c.ctrlList.map Ctrl.pdev) : enabled d ∈ t.ctrlsHeld := by
  obtain ⟨c, hc, rfl⟩ := List.mem_map.mp h
  exact List.mem_flatMap.mpr ⟨c, hc, by simp [ofCtrl]⟩

/-! ## Mappings -/

/-- The module with other mappings, after some calls. -/
def moved (t : Module) (k : KState) (gd : Nat → List P2pMapping) (calls : List (Call Resource)) :
    Module :=
  { t with k := k, gd := gd, log := t.log ++ calls }

theorem resources_congr (h : gd m.id = t.gd m.id) : m.resources gd = m.resources t.gd := by
  simp only [Map.resources, h]

theorem Reaches.moved (h : t.Reaches m) (hgd : gd m.id = t.gd m.id) :
    (t.moved k gd calls).Reaches m := by
  unfold Reaches devices at h ⊢
  simpa only [Module.moved, hgd] using h

/-- Calls that take or give back what some mappings have, and leave the rest alone. -/
theorem Inv.moved (h : t.Inv) (hk : k.Inv) {x y f : List Resource} (hx : t.mapsHeld.Perm (x ++ f))
    (hy : (k.all.flatMap (Map.resources gd)).Perm (y ++ f))
    (hr : ∀ m ∈ k.all, (t.moved k gd calls).Reaches m) (hl : t.loaded = false → k.all = [])
    (hcalls : Leads (x ++ t.ctrlsHeld) calls (y ++ t.ctrlsHeld)) : (t.moved k gd calls).Inv := by
  refine ⟨h.listed, h.count, h.few, h.served, hk, hr, fun hu => ⟨(h.unloaded hu).1, hl hu⟩,
    h.account.append (hcalls.within (f := t.driverHeld ++ f) ?_ ?_)⟩
  · refine List.perm_iff_count.mpr fun r => ?_
    have := hx.count_eq r
    simp only [held, List.count_append] at this ⊢
    omega
  · refine List.perm_iff_count.mpr fun r => ?_
    have := hy.count_eq r
    change List.count r (t.driverHeld ++ t.ctrlsHeld ++ k.all.flatMap (Map.resources gd)) = _
    simp only [List.count_append] at this ⊢
    omega

theorem moved_keep (h : t.Inv) (hk : k.Inv) (hall : k.all = t.k.all)
    (hgd : ∀ m ∈ t.k.all, gd m.id = t.gd m.id) (hcalls : Leads t.ctrlsHeld calls t.ctrlsHeld) :
    (t.moved k gd calls).Inv := by
  have hmaps : k.all.flatMap (Map.resources gd) = t.mapsHeld := by
    rw [hall]
    exact List.flatMap_congr fun m hm => resources_congr (hgd m hm)
  refine h.moved hk (y := []) (.refl ([] ++ t.mapsHeld)) (.of_eq hmaps) ?_ ?_ hcalls
  · intro m hm
    rw [hall] at hm
    exact (h.reaches m hm).moved (hgd m hm)
  · exact fun hu => hall.trans (h.unloaded hu).2

theorem moved_add (h : t.Inv) (hl : t.loaded = true) (hk : k.Inv) (hp : k.all.Perm (m :: t.k.all))
    (hgd : ∀ m ∈ t.k.all, gd m.id = t.gd m.id) (hr : (t.moved k gd calls).Reaches m)
    (hcalls : Leads t.ctrlsHeld calls (m.resources gd ++ t.ctrlsHeld)) :
    (t.moved k gd calls).Inv := by
  have hmaps : t.k.all.flatMap (Map.resources gd) = t.mapsHeld :=
    List.flatMap_congr fun m hm => resources_congr (hgd m hm)
  have hy := hp.flatMap_right (Map.resources gd)
  rw [List.flatMap_cons, hmaps] at hy
  refine h.moved hk (.refl ([] ++ t.mapsHeld)) hy ?_ ?_ hcalls
  · intro x hx
    rcases List.mem_cons.mp (hp.mem_iff.mp hx) with rfl | hx
    · exact hr
    · exact (h.reaches x hx).moved (hgd x hx)
  · intro hu
    rw [hl] at hu
    cases hu

theorem moved_remove (h : t.Inv) (hk : k.Inv) (hp : t.k.all.Perm (m :: k.all))
    (hcalls : Leads (m.resources t.gd ++ t.ctrlsHeld) calls t.ctrlsHeld) :
    (t.moved k t.gd calls).Inv := by
  have hx := hp.flatMap_right (Map.resources t.gd)
  rw [List.flatMap_cons] at hx
  refine h.moved hk (y := []) hx (.refl _) ?_ ?_ hcalls
  · intro x hx
    exact (h.reaches x (hp.mem_iff.mpr (List.mem_cons_of_mem _ hx))).moved rfl
  · intro hu
    have := hp.length_eq
    simp [(h.unloaded hu).2] at this

end

/-! ### `unmap_and_release` -/

section

variable {t : Module} {m : Map} {calls : List (Call Resource)}

theorem unlink_perm (h : t.Inv) (hm : m ∈ t.k.all) (calls : List (Call Resource)) :
    t.k.all.Perm (m :: (t.unlink m calls).k.all) := by
  have hp := filter_ne_perm h.lists.nodup hm
  rwa [KState.all, List.filter_append] at hp

theorem unlink_inv (h : t.Inv) (hm : m ∈ t.k.all)
    (hcalls : Leads (m.resources t.gd ++ t.ctrlsHeld) calls t.ctrlsHeld) :
    (t.unlink m calls).Inv := by
  refine moved_remove h ?_ (unlink_perm h hm calls) hcalls
  exact h.lists.sub (List.Sublist.append List.filter_sublist List.filter_sublist) (Nat.le_refl _)

theorem releaseCalls_leads (h : t.Inv) (hm : m ∈ t.k.all) :
    Leads (m.resources t.gd ++ t.ctrlsHeld) (t.releaseCalls m) t.ctrlsHeld :=
  releaseCalls_account (h.reaches m hm) h.few fun _ => enabled_mem

theorem unmapAndRelease_inv (h : t.Inv) (hm : m ∈ t.k.all) : (t.unmapAndRelease m).Inv :=
  unlink_inv h hm (releaseCalls_leads h hm)

theorem forceRelease_inv (h : t.Inv) (hm : m ∈ t.k.all) (hrel : m.release = some .gpuMemory) :
    (t.unlink m (t.forceReleaseGpuMemoryCalls m)).Inv :=
  unlink_inv h hm (forceRelease_account hrel (h.reaches m hm) h.few fun _ => enabled_mem)

/-- `clear_map_list` on one of the two lists leaves it empty, and does not add to the other. -/
theorem clearLoop_inv {list : KState → List Map}
    (hlist : list = KState.deviceList ∨ list = KState.hostList) (n : Nat) :
    ∀ {t : Module}, t.Inv → (list t.k).length ≤ n →
      let t' := clearLoop list n t
      t'.Inv ∧ list t'.k = [] ∧ t'.k.deviceList ⊆ t.k.deviceList ∧ t'.loaded = t.loaded := by
  induction n with
  | zero =>
    intro t h hlen
    exact ⟨h, List.length_eq_zero_iff.mp (Nat.le_zero.mp hlen), fun _ hx => hx, rfl⟩
  | succ n ih =>
    intro t h hlen
    unfold clearLoop
    split
    · rename_i hl
      exact ⟨h, hl, fun _ hx => hx, rfl⟩
    · rename_i m rest hl
      have hm : m ∈ t.k.all := by
        have hm : m ∈ list t.k := hl ▸ List.mem_cons_self
        rcases hlist with rfl | rfl
        · exact List.mem_append_right _ hm
        · exact List.mem_append_left _ hm
      have hrem : list (t.unmapAndRelease m).k = listRemove (list t.k) m := by
        rcases hlist with rfl | rfl <;> rfl
      have hdrop : (listRemove (m :: rest) m).length ≤ rest.length := by
        simp only [listRemove, List.filter_cons, ne_eq, not_true_eq_false, decide_false,
          Bool.false_eq_true, if_false]
        exact List.length_filter_le _ _
      have hlen' : (list (t.unmapAndRelease m).k).length ≤ n := by
        rw [hrem, hl]
        rw [hl, List.length_cons] at hlen
        omega
      obtain ⟨hi, he, hs, hld⟩ := ih (unmapAndRelease_inv h hm) hlen'
      exact ⟨hi, he, fun x hx => (List.mem_filter.mp (hs hx)).1, hld⟩

end

/-! ## Controllers -/

section

variable {max : BitVec 32} {t : Module} {dev : Nat} {env : ProbeEnv} {cdevAdd : Bool} {c : CtrlState}

/-- The controllers in front keep their places when another one goes. -/
theorem prefix_erase {ctrls : List Ctrl} {l : List Nat} {x : Ctrl}
    (h : l <+: ctrls.map Ctrl.pdev) (hx : x.pdev ∉ l) : l <+: (ctrls.erase x).map Ctrl.pdev := by
  have hl : l = (ctrls.take l.length).map Ctrl.pdev := by
    rw [List.map_take]
    exact List.prefix_iff_eq_take.mp h
  have hnot : x ∉ ctrls.take l.length := by
    intro hmem
    exact hx (hl ▸ List.mem_map_of_mem hmem)
  have hsplit := List.take_append_drop l.length ctrls
  rw [← hsplit, List.erase_append_right _ hnot, List.map_append, ← hl]
  exact List.prefix_append _ _

theorem mem_erase_pdev {ctrls : List Ctrl} {d : Nat} {x : Ctrl} (hne : d ≠ x.pdev)
    (h : d ∈ ctrls.map Ctrl.pdev) : d ∈ (ctrls.erase x).map Ctrl.pdev := by
  obtain ⟨y, hy, rfl⟩ := List.mem_map.mp h
  have hyx : y ≠ x := by
    rintro rfl
    exact hne rfl
  exact List.mem_map_of_mem ((List.mem_erase_of_ne hyx).mpr hy)

/-- A mapping reaches its devices as long as none of them is removed. -/
theorem Reaches.erase {m : Map} {x : Ctrl} (h : t.Reaches m) (hx : x.pdev ∉ t.devices m)
    (hc : c.ctrlList = t.c.ctrlList.erase x) {log : List (Call Resource)} :
    ({ t with c := c, log := log } : Module).Reaches m := by
  unfold Reaches at h ⊢
  simp only [hc]
  split at h
  · exact prefix_erase h hx
  · exact fun d hd => mem_erase_pdev (ne_of_mem_of_not_mem hd hx) (h d hd)

theorem Reaches.snoc {m : Map} {x : Ctrl} (h : t.Reaches m)
    (hc : c.ctrlList = t.c.ctrlList ++ [x]) {log : List (Call Resource)} :
    ({ t with c := c, log := log } : Module).Reaches m := by
  unfold Reaches at h ⊢
  simp only [hc, List.map_append]
  split at h
  · exact h.trans (List.prefix_append _ _)
  · exact fun d hd => List.mem_append_left _ (h d hd)

theorem removePciDev_inv (h : t.Inv) (hl : t.loaded = true) (hb : dev ∈ t.c.bound)
    (hno : ∀ m ∈ t.k.all, dev ∉ t.devices m) : (t.removePciDev dev).Inv := by
  obtain ⟨x, hx, rfl, hf⟩ := CtrlState.find_pdev (h.served dev hb)
  have hstep : t.c.step 0 (.remove x.pdev) = some (t.removePciDev x.pdev).c := by
    simp only [CtrlState.step, if_pos hb, removePciDev]
  have hc : (t.removePciDev x.pdev).c =
      ⟨t.c.ctrlList.erase x, t.c.currCtrls - 1, t.c.bound.erase x.pdev⟩ := by
    simp only [CtrlState.ctrlFindByPciDev] at hf
    simp only [removePciDev, CtrlState.removePciDev, CtrlState.ctrlFindByPciDev, hf,
      CtrlState.ctrlPut]
  have hperm : t.ctrlsHeld.Perm (ofCtrl x.pdev ++ (t.removePciDev x.pdev).ctrlsHeld) := by
    have := (List.perm_cons_erase hx).flatMap_right fun c : Ctrl => ofCtrl c.pdev
    simp only [ctrlsHeld, hc]
    exact this
  have hpos := List.length_pos_of_mem hx
  refine ⟨CtrlState.step_listed h.listed hstep, ?_, ?_, ?_, h.lists, ?_, ?_, ?_⟩
  · rw [hc, CtrlState.toInt_pred (by have := h.count; omega), h.count, List.length_erase_of_mem hx]
    omega
  · rw [hc]
    exact (List.length_erase_le).trans h.few
  · rw [hc]
    intro d hd
    obtain ⟨hne, hd⟩ := h.listed.bound_nodup.mem_erase_iff.mp hd
    exact mem_erase_pdev hne (h.served d hd)
  · intro m hm
    exact (h.reaches m hm).erase (hno m hm) (congrArg CtrlState.ctrlList hc)
  · intro hu
    rw [show (t.removePciDev x.pdev).loaded = t.loaded from rfl, hl] at hu
    cases hu
  · refine h.account.append ((removePciDev_account hf).within
      (f := (t.removePciDev x.pdev).ctrlsHeld ++ t.mapsHeld) ?_ ?_)
    · refine List.perm_iff_count.mpr fun r => ?_
      have := hperm.count_eq r
      simp only [held, driverHeld, hl, if_true, List.count_append] at this ⊢
      omega
    · refine List.perm_iff_count.mpr fun r => ?_
      change List.count r (t.driverHeld ++ (t.removePciDev x.pdev).ctrlsHeld ++ t.mapsHeld) = _
      simp only [driverHeld, hl, if_true, List.count_append]
      omega

theorem probe_inv (hmax : max.toInt ≤ maxNumCtrls) (h : t.Inv) (hl : t.loaded = true)
    (hlt : t.c.currCtrls.toInt < max.toInt) (hs : t.c.step max (.probe dev env) = some c) :
    ({ t with c := c, log := t.log ++ addPciDevCalls max t.c dev env cdevAdd } : Module).Inv := by
  have hlisted := CtrlState.step_listed h.listed hs
  simp only [CtrlState.step] at hs
  split at hs
  · cases hs
  rename_i hb
  have hne : ∀ c ∈ t.c.ctrlList, c.pdev ≠ dev := by
    rintro c hc rfl
    exact hb (h.listed.bound c hc)
  rcases @addPciDev_account max t.c dev env cdevAdd hlt hne with ⟨he, hacc⟩ | ⟨e, he, hacc⟩
  · rw [he] at hs
    cases hs
    refine ⟨hlisted, ?_, ?_, ?_, h.lists, ?_, ?_, ?_⟩
    · simp only [List.length_append, List.length_singleton, CtrlState.toInt_succ hlt, h.count]
      omega
    · have := h.count
      simp only [List.length_append, List.length_singleton]
      omega
    · intro d hd
      simp only [List.map_append, List.map_cons, List.map_nil, List.mem_append, List.mem_singleton]
      rcases List.mem_cons.mp hd with rfl | hd
      · exact .inr rfl
      · exact .inl (h.served d hd)
    · intro m hm
      exact (h.reaches m hm).snoc rfl
    · intro hu
      rw [hl] at hu
      cases hu
    · refine h.account.append (hacc.within (f := t.ctrlsHeld ++ t.mapsHeld) ?_ ?_)
      · refine List.perm_iff_count.mpr fun r => ?_
        simp only [held, driverHeld, hl, if_true, List.count_append]
        omega
      · refine List.perm_iff_count.mpr fun r => ?_
        simp only [held, driverHeld, hl, if_true, ctrlsHeld, mapsHeld, List.flatMap_append,
          List.flatMap_cons, List.flatMap_nil, List.count_append, List.count_nil]
        omega
  · rw [he] at hs
    cases hs
    refine ⟨h.listed, h.count, h.few, h.served, h.lists, h.reaches, h.unloaded, ?_⟩
    refine h.account.append (hacc.within (f := t.ctrlsHeld ++ t.mapsHeld) ?_ ?_)
    all_goals
      refine List.perm_iff_count.mpr fun r => ?_
      simp only [held, driverHeld, hl, if_true, ctrlsHeld, mapsHeld, List.count_append]
      omega

end

/-! ## ioctls -/

section

variable {t : Module} {c : Ioctl}

/-- A request makes `gd->mappings` of a new mapping only. -/
theorem newGd_old (h : t.Inv) : ∀ m ∈ t.k.all, t.newGd c m.id = t.gd m.id := by
  intro m hm
  have hne := Nat.ne_of_lt (h.lists.bound m hm)
  unfold newGd
  cases c.req with
  | mapDevice copyIn copyOut vaddr nPages env => exact if_neg hne
  | mapHost => rfl
  | mapDmabuf => rfl
  | unmap => rfl

/-- The ioctl uses the controller that it has found. -/
theorem use_leads {d : Nat} (hd : d ∈ t.c.ctrlList.map Ctrl.pdev) {x l : List Resource}
    {calls : List (Call Resource)} (h : Leads (x ++ t.ctrlsHeld) calls l) :
    Leads (x ++ t.ctrlsHeld) (⟨[.cdev d, .ctrl d], none⟩ :: calls) l := by
  have hmem : ∀ r ∈ ofCtrl d, r ∈ x ++ t.ctrlsHeld := by
    obtain ⟨c, hc, rfl⟩ := List.mem_map.mp hd
    exact fun r hr => List.mem_append_right _ (List.mem_flatMap.mpr ⟨c, hc, hr⟩)
  refine Leads.append (Leads.use ?_) h
  simp only [List.forall_mem_cons]
  exact ⟨hmem _ (by simp [ofCtrl]), hmem _ (by simp [ofCtrl]), by simp⟩

theorem reaches_own {m : Map} (hrel : m.release ≠ some .gpuMemory)
    (hd : m.pdev ∈ t.c.ctrlList.map Ctrl.pdev) : t.Reaches m := by
  unfold Reaches devices
  rcases hr : m.release with _ | _ | _ | _
  · simp
  · simpa using hd
  · exact absurd hr hrel
  · simpa using hd

variable {j : Nat} {current : Task} {pdev : Nat}

theorem lists_after (hj : j ≤ 64) (h : t.Inv) (req : Request) :
    (({ t.k with nCtrls := t.c.ctrlList.length } : KState).mapIoctl (2 ^ j) current pdev req).k.Inv := by
  have hk : ({ t.k with nCtrls := t.c.ctrlList.length } : KState).Inv :=
    ⟨h.lists.own, h.lists.nodup, h.lists.bound⟩
  exact KState.step_inv hj (c := ⟨current, pdev, req⟩) hk rfl

/-- The module after an ioctl on a controller that it has. -/
def served (P : Nat) (t : Module) (c : Ioctl) : Module :=
  t.moved (({ t.k with nCtrls := t.c.ctrlList.length } : KState).mapIoctl P c.current c.pdev c.req).k
    (t.newGd c) (⟨[.cdev c.pdev, .ctrl c.pdev], none⟩ :: t.ioctlCalls P c)

theorem mapHost_inv (hj : j ≤ 64) (h : t.Inv) (hl : t.loaded = true)
    (hd : pdev ∈ t.c.ctrlList.map Ctrl.pdev) (copyIn copyOut : Bool) (vaddr nPages : Nat)
    {env : HostEnv} (hall : env.MapsAll (2 ^ j) vaddr) :
    (t.served (2 ^ j) ⟨current, pdev, .mapHost copyIn copyOut vaddr nPages env⟩).Inv := by
  have hk := @lists_after t j current pdev hj h (.mapHost copyIn copyOut vaddr nPages env)
  cases copyIn with
  | false => exact moved_keep h hk rfl (newGd_old h) (use_leads (x := []) hd .nil)
  | true =>
    have hacc := @mapUserspace_account (2 ^ j) env t.k.nextId current pdev vaddr nPages t.ctrlsHeld
      t.gd hall (enabled_mem hd)
    cases hm : mapUserspace (2 ^ j) env t.k.nextId current pdev vaddr nPages with
    | error e =>
      simp only [hm] at hacc
      refine moved_keep h hk ?_ (newGd_old h) (use_leads (x := []) hd hacc)
      simp [KState.mapIoctl, hm, KState.fail, KState.all]
    | ok m =>
      simp only [hm] at hacc
      obtain ⟨-, hpdev, hrel, hlead⟩ := hacc
      refine moved_add h hl hk (m := m) ?_ (newGd_old h) (reaches_own hrel (hpdev ▸ hd))
        (use_leads (x := []) hd hlead)
      simp only [KState.mapIoctl, Bool.not_true, Bool.false_eq_true, if_false, hm,
        KState.insertHost]
      split <;> exact KState.all_append_host t.k m

theorem mapDevice_inv (hj : j ≤ 64) (h : t.Inv) (hl : t.loaded = true)
    (hd : pdev ∈ t.c.ctrlList.map Ctrl.pdev) (copyIn copyOut : Bool) (vaddr nPages : Nat)
    (env : GpuEnv) :
    (t.served (2 ^ j) ⟨current, pdev, .mapDevice copyIn copyOut vaddr nPages env⟩).Inv := by
  have hk := @lists_after t j current pdev hj h (.mapDevice copyIn copyOut vaddr nPages env)
  have hen : ∀ c ∈ t.c.ctrlList, enabled c.pdev ∈ t.ctrlsHeld :=
    fun c hc => enabled_mem (List.mem_map_of_mem hc)
  cases copyIn with
  | false => exact moved_keep h hk rfl (newGd_old h) (use_leads (x := []) hd .nil)
  | true =>
    have hgd : t.newGd ⟨current, pdev, .mapDevice true copyOut vaddr nPages env⟩ t.k.nextId =
        (created env t.c.ctrlList 0).1 := if_pos rfl
    have hacc := @mapDeviceMemory_account env t.c.ctrlList t.k.nextId current pdev vaddr nPages
      t.ctrlsHeld _ h.few hen hgd
    cases hm : mapDeviceMemory env t.c.ctrlList.length t.k.nextId current pdev vaddr nPages with
    | error e =>
      simp only [hm] at hacc
      refine moved_keep h hk ?_ (newGd_old h) (use_leads (x := []) hd hacc)
      simp [KState.mapIoctl, hm, KState.fail, KState.all]
    | ok m =>
      simp only [hm] at hacc
      obtain ⟨hid, -, hrel, hlead⟩ := hacc
      refine moved_add h hl hk (m := m) ?_ (newGd_old h) ?_ (use_leads (x := []) hd hlead)
      · simp only [KState.mapIoctl, Bool.not_true, Bool.false_eq_true, if_false, hm,
          KState.insertDevice]
        split <;> exact KState.all_append_device t.k m
      · unfold Reaches devices
        simp only [hrel, moved, hid, hgd]
        exact created_pdev env t.c.ctrlList 0

theorem mapDmabuf_inv (hj : j ≤ 64) (h : t.Inv) (hl : t.loaded = true)
    (hd : pdev ∈ t.c.ctrlList.map Ctrl.pdev) (copyIn copyOut : Bool) (req : DmabufReq)
    (env : DmabufEnv) :
    (t.served (2 ^ j) ⟨current, pdev, .mapDmabuf copyIn copyOut req env⟩).Inv := by
  have hk := @lists_after t j current pdev hj h (.mapDmabuf copyIn copyOut req env)
  obtain ⟨hhost, ⟨m, hid, hpdev, hrel, hdev, hlead⟩ | ⟨hdev, hlead⟩⟩ :=
    @dmabuf_account (2 ^ j) { t.k with nCtrls := t.c.ctrlList.length } current pdev copyOut req env
      t.ctrlsHeld t.gd copyIn (enabled_mem hd)
  · refine moved_add h hl hk (m := m) ?_ (newGd_old h) (reaches_own (by simp [hrel]) (hpdev ▸ hd))
      (use_leads (x := []) hd hlead)
    rw [KState.all, hhost, hdev, ← List.append_assoc]
    exact List.perm_append_singleton m _
  · refine moved_keep h hk ?_ (newGd_old h) (use_leads (x := []) hd hlead)
    rw [KState.all, hhost, hdev]
    rfl

/-- `NVM_UNMAP_MEMORY` releases the first mapping that matches. -/
theorem ioctlCalls_unmap (P : Nat) (t : Module) (current : Task) (pdev addr : Nat) :
    t.ioctlCalls P ⟨current, pdev, .unmap true addr⟩ =
      match t.k.all.find? (Map.matchesAddr current addr) with
      | some m => t.releaseCalls m
      | none => [] := by
  simp only [ioctlCalls, Bool.not_true, Bool.false_eq_true, if_false, mapFind, KState.all,
    List.find?_append]
  cases t.k.hostList.find? (Map.matchesAddr current addr) with
  | some m => rfl
  | none => rfl

theorem unmap_inv (hj : j ≤ 64) (h : t.Inv) (hd : pdev ∈ t.c.ctrlList.map Ctrl.pdev) (copyIn : Bool)
    (addr : Nat) : (t.served (2 ^ j) ⟨current, pdev, .unmap copyIn addr⟩).Inv := by
  have hk := @lists_after t j current pdev hj h (.unmap copyIn addr)
  cases copyIn with
  | false => exact moved_keep h hk rfl (newGd_old h) (use_leads (x := []) hd .nil)
  | true =>
    unfold served
    rw [ioctlCalls_unmap]
    cases hf : t.k.all.find? (Map.matchesAddr current addr) with
    | none =>
      refine moved_keep h hk ?_ (newGd_old h) (use_leads (x := []) hd .nil)
      have hnone := @KState.unmap_none { t.k with nCtrls := t.c.ctrlList.length } current addr hf
      exact (congrArg KState.all hnone).trans rfl
    | some m =>
      have hm := List.mem_of_find?_eq_some hf
      have hperm := filter_ne_perm h.lists.nodup hm
      obtain ⟨hhost, hdev, -⟩ := @KState.unmap_removes { t.k with nCtrls := t.c.ctrlList.length }
        ⟨h.lists.own, h.lists.nodup, h.lists.bound⟩ current addr m hf
      refine moved_remove h hk ?_ (use_leads hd (releaseCalls_leads h hm))
      rw [KState.all, List.filter_append] at hperm
      refine hperm.trans (List.Perm.of_eq (congrArg (m :: ·) ?_))
      exact (congrArg₂ (· ++ ·) hhost hdev).symm

theorem mapIoctl_inv {max : BitVec 32} {c : Ioctl} (hj : j ≤ 64) (h : t.Inv) (hl : t.loaded = true)
    (hreg : t.Regular max (2 ^ j) (.ioctl c)) : (t.mapIoctl (2 ^ j) c).Inv := by
  unfold mapIoctl
  split
  · exact h
  rename_i x hf
  have hd : c.pdev ∈ t.c.ctrlList.map Ctrl.pdev := by
    have hx := List.find?_some hf
    simp only [decide_eq_true_eq] at hx
    exact hx ▸ List.mem_map_of_mem (List.mem_of_find?_eq_some hf)
  obtain ⟨current, pdev, req⟩ := c
  cases req with
  | mapHost copyIn copyOut vaddr nPages env =>
    exact mapHost_inv hj h hl hd copyIn copyOut vaddr nPages hreg
  | mapDevice copyIn copyOut vaddr nPages env =>
    exact mapDevice_inv hj h hl hd copyIn copyOut vaddr nPages env
  | mapDmabuf copyIn copyOut req env => exact mapDmabuf_inv hj h hl hd copyIn copyOut req env
  | unmap copyIn addr => exact unmap_inv hj h hd copyIn addr

end

/-! ## Load and unload -/

section

variable {t : Module}

/-- A module without controllers and mappings. -/
theorem empty_inv {b : Bool} {k : KState} {gd : Nat → List P2pMapping} {log : List (Call Resource)}
    (hk : k.Inv) (hall : k.all = []) (hlog : Leads [] log (if b then ofDriver else [])) :
    (⟨b, .init, k, gd, log⟩ : Module).Inv := by
  refine ⟨CtrlState.init_listed, rfl, Nat.zero_le _, ?_, hk, ?_, fun _ => ⟨rfl, hall⟩, ?_⟩
  · simp [CtrlState.init]
  · simp [hall]
  · simpa [held, driverHeld, ctrlsHeld, CtrlState.init, mapsHeld, hall] using hlog

theorem held_unloaded (h : t.Inv) (hl : t.loaded = false) : t.held = [] := by
  obtain ⟨hc, hk⟩ := h.unloaded hl
  simp [held, driverHeld, hl, ctrlsHeld, hc, mapsHeld, hk]

/-- `ugds_drv_entry` registers the module, or it fails and gives back what it has taken. -/
theorem ugdsDrvEntry_inv (h : t.Inv) (hl : t.loaded = false) (alloc create register : Option Errno) :
    (t.ugdsDrvEntry alloc create register).Inv := by
  have hlog := h.account
  rw [held_unloaded h hl] at hlog
  have hk : ({ t.k with hostList := [], deviceList := [] } : KState).Inv :=
    h.lists.sub (List.nil_sublist _) (Nat.le_refl _)
  unfold ugdsDrvEntry
  split
  · rw [hl]
    exact empty_inv hk rfl hlog
  · rw [hl]
    refine empty_inv hk rfl (hlog.append ?_)
    simp [Leads, account, Call.apply, Op.apply, needs, take, give]
  · rw [hl]
    refine empty_inv hk rfl (hlog.append ?_)
    simp [Leads, account, Call.apply, Op.apply, needs, take, give]
  · refine empty_inv hk rfl (hlog.append (leads_take ?_ (leads_take ?_ (leads_take ?_ .nil))))
    all_goals simp [needs]

/-- `pci_unregister_driver` removes the bound devices, one after the other. -/
theorem removeAll_inv :
    ∀ (devs : List Nat) {t : Module}, t.Inv → t.loaded = true → t.k.all = [] → t.c.bound = devs →
      let t' := devs.foldl removePciDev t
      t'.Inv ∧ t'.loaded = true ∧ t'.k.all = [] ∧ t'.c.bound = []
  | [], _, h, hl, hk, hb => ⟨h, hl, hk, hb⟩
  | dev :: devs, t, h, hl, hk, hb => by
    have hinv : (t.removePciDev dev).Inv :=
      removePciDev_inv h hl (hb ▸ List.mem_cons_self) (by simp [hk])
    have hb' : (t.removePciDev dev).c.bound = devs := by
      simp only [removePciDev, hb, List.erase_cons_head]
    exact removeAll_inv devs hinv hl hk hb'

/-- The last calls of `ugds_drv_exit`, when no mapping and no device is left. -/
theorem unregistered_inv (h : t.Inv) (hl : t.loaded = true) (hk : t.k.all = [])
    (hb : t.c.bound = []) :
    ({ t with
      loaded := false
      log := t.log ++ [pciDriver.give, devClass.give, chrdevRegion.give] } : Module).Inv := by
  have hc : t.c.ctrlList = [] := by
    refine List.eq_nil_iff_forall_not_mem.mpr fun x hx => ?_
    have := h.listed.bound x hx
    rw [hb] at this
    cases this
  have hlog := h.account
  have hheld : t.held = ofDriver := by simp [held, driverHeld, hl, ctrlsHeld, hc, mapsHeld, hk]
  have hend : Leads ofDriver [pciDriver.give, devClass.give, chrdevRegion.give] [] := by
    refine leads_give ?_ (leads_give ?_ (leads_give ?_ .nil))
    all_goals simp [needs]
  rw [hheld] at hlog
  refine ⟨h.listed, h.count, h.few, h.served, h.lists, h.reaches, fun _ => ⟨hc, hk⟩, ?_⟩
  simpa [held, driverHeld, ctrlsHeld, hc, mapsHeld, hk] using hlog.append hend

/-- `ugds_drv_exit` gives everything back. -/
theorem ugdsDrvExit_inv (h : t.Inv) (hl : t.loaded = true) : t.ugdsDrvExit.Inv := by
  obtain ⟨h1, hd1, -, hl1⟩ := clearLoop_inv (.inl rfl) _ h (Nat.le_refl _)
  obtain ⟨h2, hh2, hd2, hl2⟩ := clearLoop_inv (.inr rfl) _ h1 (Nat.le_refl _)
  have hall := List.append_eq_nil_iff.mpr ⟨hh2, List.eq_nil_of_subset_nil (hd1 ▸ hd2)⟩
  obtain ⟨h3, hl3, hk3, hb3⟩ := removeAll_inv _ h2 (hl2.trans (hl1.trans hl)) hall rfl
  exact unregistered_inv h3 hl3 hk3 hb3

end

section

variable {max : BitVec 32} {j : Nat} {t t' : Module} {l : Label}

theorem step_inv (hmax : max.toInt ≤ maxNumCtrls) (hj : j ≤ 64) (h : t.Inv)
    (hreg : t.Regular max (2 ^ j) l) (hs : t.step max (2 ^ j) l = some t') : t'.Inv := by
  cases l with
  | load alloc create register =>
    simp only [step] at hs
    split at hs
    · cases hs
    · rename_i hl
      cases hs
      exact ugdsDrvEntry_inv h (by simpa using hl) alloc create register
  | probe dev env cdevAdd =>
    simp only [step] at hs
    split at hs
    · cases hs
    · rename_i hl
      obtain ⟨c, hc, rfl⟩ := Option.map_eq_some_iff.mp hs
      exact probe_inv hmax h (by simpa using hl) hreg hc
  | remove dev =>
    simp only [step] at hs
    split at hs
    · rename_i hc
      cases hs
      simp only [Bool.and_eq_true, decide_eq_true_eq] at hc
      exact removePciDev_inv h hc.1 hc.2 hreg
    · cases hs
  | ioctl c =>
    simp only [step] at hs
    split at hs
    · cases hs
    · rename_i hl
      cases hs
      exact mapIoctl_inv hj h (by simpa using hl) hreg
  | reclaim id =>
    simp only [step] at hs
    split at hs
    · rename_i m hf
      cases hs
      have hm := List.mem_of_find?_eq_some hf
      have hrel := List.find?_some hf
      simp only [decide_eq_true_eq] at hrel
      exact forceRelease_inv h (List.mem_append_right _ hm) hrel.2
    · cases hs
  | unload =>
    simp only [step] at hs
    split at hs
    · rename_i hl
      cases hs
      exact ugdsDrvExit_inv h hl
    · cases hs

end

end Module

open Drv.Module

/-- For every sequence of loads, probes, removals, ioctls of any threads on any controllers, callbacks
of the NVIDIA driver and unloads, whatever the kernel answers, in which `max_num_ctrls` is not reached
when a device is probed, no device is removed that a mapping uses, and no page that was pinned for a
host mapping fails to be mapped: in every state nothing has been given back that was not held or while
something that it needs was missing, and what is held is what the module should have for its
controllers and the mappings in its lists. When the module is not loaded, nothing is held. -/
theorem module_gives_back (max : BitVec 32) (hmax : max.toInt ≤ maxNumCtrls) (j : Nat) (hj : j ≤ 64)
    {tr : List (Module × Label)} {t : Module} (hr : Run (Module.step max (2 ^ j)) .init tr t)
    (hreg : ∀ x ∈ tr, x.1.Regular max (2 ^ j) x.2) :
    Leads [] t.log t.held ∧ (∀ x ∈ tr, Leads [] x.1.log x.1.held) ∧
      (t.loaded = false → t.held = [] ∧ (released t.log).Perm (acquired t.log)) := by
  obtain ⟨h, hall⟩ := Run.inv Module.Inv (fun t l => t.Regular max (2 ^ j) l)
    (fun _ _ _ hi hg hs => step_inv hmax hj hi hg hs) hr init_inv hreg
  refine ⟨h.account, fun x hx => (hall x hx).account, fun hl => ⟨held_unloaded h hl, ?_⟩⟩
  have hlog := h.account
  rw [held_unloaded h hl] at hlog
  exact released_perm hlog

/-- One page of host memory and one GPU page for two controllers, a probe that fails halfway, and the
NVIDIA driver's callback; then the module is unloaded with the host mapping and both devices left. -/
def moduleEvents : List Label :=
  [.load none none none, .probe 7 .ok true, .probe 8 .ok true,
    .probe 9 { ProbeEnv.ok with chrdevCreate := some .ENOMEM } true,
    .ioctl ⟨⟨1, 1⟩, 7, .mapHost true true 0x10000 1
      ⟨true, true, .ok 1, fun _ => 0x1000#64, fun _ => none⟩⟩,
    .ioctl (gpuRequest 0x20000), .ioctl { gpuRequest 0x20000 with pdev := 8 }, .reclaim 1,
    .remove 8, .unload]

/-- In that run 24 resources are taken and given back, and nothing is left. -/
theorem module_gives_back_unloaded :
    ∃ tr t, Run (Module.step 64 (2 ^ 12)) .init tr t ∧ t.loaded = false ∧ t.held = [] ∧
      (released t.log).length = 24 ∧ (released t.log).Perm (acquired t.log) := by
  obtain ⟨tr, t, hr, hg, hp⟩ := follow_run (Module.step 64 (2 ^ 12))
    (fun t l => decide (t.Regular 64 (2 ^ 12) l)) .init moduleEvents
    (fun t => !t.loaded && decide ((released t.log).length = 24)) (by decide +kernel)
  simp only [Bool.and_eq_true, Bool.not_eq_true', decide_eq_true_eq] at hp
  obtain ⟨-, -, hend⟩ := module_gives_back 64 (by decide) 12 (by decide) hr
    fun x hx => of_decide_eq_true (hg x hx)
  exact ⟨tr, t, hr, hp.1, (hend hp.1).1, hp.2, (hend hp.1).2⟩

end Drv
end UGDS
