import UGDS.Drv.Ctrls
import UGDS.Drv.Map

/-!
# UGDS.Drv.Gpu

The per-controller mappings of GPU memory (`map_gpu_memory` and `release_gpu_memory`, `drv/map.c`).

`map_gpu_memory` walks `ctrl_list` and stores the mapping of the `j`-th controller in entry `j` of
`gd->mappings`. `release_gpu_memory` walks `ctrl_list` again, as it is by then, and hands entry 0 to
the first controller, entry 1 to the second, and so on. The array has as many entries as `map.c`'s
own `max_num_ctrls` says, which is not the module parameter of the same name.

* `storeMappings_spec`, `unmapMappings_spec`: what the two walks do.
* `gpu_teardown_exact`: when every mapping is unmapped for its own controller.
* `gpu_teardown_shifted`: the first of two controllers is removed in between.
-/

namespace UGDS
namespace Drv

open Lib Nvm

/-- `max_num_ctrls` of `map.c`. -/
def maxNumCtrls : Nat := 64

/-- A `nvidia_p2p_dma_mapping_t`: the call that made it, and the device it was made for. -/
structure P2pMapping where
  call : Nat
  pdev : Nat
  deriving DecidableEq, Repr

/-- The loop of `map_gpu_memory`, with `j` mappings stored. `none` is a store outside the array. -/
def storeMappings (env : GpuEnv) : List Ctrl → (j : Nat) → List (Option P2pMapping) →
    Option (List (Option P2pMapping) × Option Errno)
  | [], _, ms => some (ms, none)
  | ctrl :: rest, j, ms =>
    match env.dmaMapPages j with
    | .error e => some (ms, some e)
    | .ok _ =>
      if j < ms.length then storeMappings env rest (j + 1) (ms.set j (some ⟨j, ctrl.pdev⟩)) else none

/-- The loop of `release_gpu_memory`: the calls of `nvidia_p2p_dma_unmap_pages`, each with the device
and the mapping that it passes. `none` is a read outside the array. -/
def unmapMappings (ms : List (Option P2pMapping)) : List Ctrl → (j : Nat) →
    Option (List (Nat × P2pMapping))
  | [], _ => some []
  | ctrl :: rest, j =>
    match ms[j]? with
    | none => none
    | some none => unmapMappings ms rest j
    | some (some m) => (unmapMappings ms rest (j + 1)).map fun calls => (ctrl.pdev, m) :: calls

/-- `gd->mappings` before the loop. -/
def noMappings : List (Option P2pMapping) := List.replicate maxNumCtrls none

/-! ## The two walks -/

/-- The mappings that `nvidia_p2p_dma_map_pages` makes for the controllers of a list, up to the first
error. -/
def created (env : GpuEnv) : List Ctrl → (j : Nat) → List P2pMapping × Option Errno
  | [], _ => ([], none)
  | ctrl :: rest, j =>
    match env.dmaMapPages j with
    | .error e => ([], some e)
    | .ok _ =>
      let made := created env rest (j + 1)
      (⟨j, ctrl.pdev⟩ :: made.1, made.2)

/-- The array with the first entries in use. -/
def filled (made : List P2pMapping) : List (Option P2pMapping) :=
  made.map some ++ List.replicate (maxNumCtrls - made.length) none

theorem filled_length {made : List P2pMapping} (h : made.length ≤ maxNumCtrls) :
    (filled made).length = maxNumCtrls := by
  simp only [filled, List.length_append, List.length_map, List.length_replicate]
  omega

theorem filled_set {made : List P2pMapping} {m : P2pMapping} (h : made.length < maxNumCtrls) :
    (filled made).set made.length (some m) = filled (made ++ [m]) := by
  obtain ⟨k, hk⟩ := Nat.exists_eq_add_of_lt h
  have h1 : maxNumCtrls - made.length = k + 1 := by omega
  have h2 : maxNumCtrls - (made ++ [m]).length = k := by
    simp only [List.length_append, List.length_singleton]
    omega
  simp only [filled, h1, h2, List.replicate_succ]
  rw [List.set_append_right _ _ (by simp)]
  simp

theorem storeMappings_spec (env : GpuEnv) :
    ∀ (ctrls : List Ctrl) (made : List P2pMapping), made.length ≤ maxNumCtrls →
      storeMappings env ctrls made.length (filled made) =
        let new := created env ctrls made.length
        if made.length + new.1.length ≤ maxNumCtrls then some (filled (made ++ new.1), new.2)
        else none := by
  intro ctrls
  induction ctrls with
  | nil =>
    intro made h
    simp [storeMappings, created, h]
  | cons ctrl rest ih =>
    intro made h
    match hm : env.dmaMapPages made.length with
    | .error e => simp [storeMappings, created, hm, h]
    | .ok _ =>
      simp only [storeMappings, created, hm, filled_length h]
      by_cases hlt : made.length < maxNumCtrls
      · have := ih (made ++ [⟨made.length, ctrl.pdev⟩]) (by simp; omega)
        simp only [List.length_append, List.length_singleton] at this
        simp only [if_pos hlt, filled_set hlt, this, List.length_cons, List.append_assoc,
          List.singleton_append, Nat.add_assoc, Nat.add_comm 1]
      · simp only [if_neg hlt, List.length_cons]
        rw [if_neg (by omega)]

theorem unmapMappings_spec (made : List P2pMapping) (h : made.length ≤ maxNumCtrls) :
    ∀ (ctrls : List Ctrl) (j : Nat), j ≤ made.length →
      unmapMappings (filled made) ctrls j =
        if made.length = maxNumCtrls ∧ made.length - j < ctrls.length then none
        else some ((ctrls.map Ctrl.pdev).zip (made.drop j)) := by
  intro ctrls
  induction ctrls with
  | nil =>
    intro j _
    simp [unmapMappings]
  | cons ctrl rest ih =>
    intro j hj
    simp only [unmapMappings]
    by_cases hlt : j < made.length
    · have hget : (filled made)[j]? = some (some made[j]) := by
        rw [filled, List.getElem?_append_left (by simpa using hlt)]
        simp [hlt]
      simp only [hget, ih (j + 1) hlt, List.length_cons, List.map_cons]
      rw [List.drop_eq_getElem_cons hlt, List.zip_cons_cons]
      have hiff : made.length - (j + 1) < rest.length ↔ made.length - j < rest.length + 1 := by omega
      simp only [hiff]
      split <;> simp
    · have hj' : j = made.length := by omega
      subst hj'
      by_cases hfull : made.length = maxNumCtrls
      · have hget : (filled made)[made.length]? = none := by
          rw [List.getElem?_eq_none]
          rw [filled_length h]
          omega
        simp only [hget]
        rw [if_pos ⟨hfull, by simp⟩]
      · have hpos : 0 < maxNumCtrls - made.length := by omega
        have hget : (filled made)[made.length]? = some none := by
          rw [filled, List.getElem?_append_right (by simp)]
          simp [hpos]
        simp only [hget, ih made.length (Nat.le_refl _), hfull, false_and, if_false,
          List.drop_length, List.zip_nil_right]

theorem filled_nil : filled [] = noMappings := rfl

theorem storeMappings_all (env : GpuEnv) (ctrls : List Ctrl) :
    storeMappings env ctrls 0 noMappings =
      if (created env ctrls 0).1.length ≤ maxNumCtrls then
        some (filled (created env ctrls 0).1, (created env ctrls 0).2)
      else none := by
  have h := storeMappings_spec env ctrls [] (Nat.zero_le _)
  simpa only [List.length_nil, List.nil_append, Nat.zero_add, filled_nil] using h

theorem unmapMappings_all {made : List P2pMapping} (h : made.length ≤ maxNumCtrls)
    (ctrls : List Ctrl) :
    unmapMappings (filled made) ctrls 0 =
      if made.length = maxNumCtrls ∧ maxNumCtrls < ctrls.length then none
      else some ((ctrls.map Ctrl.pdev).zip made) := by
  rw [unmapMappings_spec made h ctrls 0 (Nat.zero_le _), List.drop_zero, Nat.sub_zero]
  refine if_congr ?_ rfl rfl
  omega

theorem created_pdev (env : GpuEnv) :
    ∀ (ctrls : List Ctrl) (j : Nat),
      (created env ctrls j).1.map P2pMapping.pdev <+: ctrls.map Ctrl.pdev := by
  intro ctrls
  induction ctrls with
  | nil =>
    intro j
    exact List.prefix_rfl
  | cons ctrl rest ih =>
    intro j
    simp only [created]
    cases env.dmaMapPages j with
    | error e => exact List.nil_prefix
    | ok _ => exact List.cons_prefix_cons.mpr ⟨rfl, ih (j + 1)⟩

/-- The error is the one that the loop over the controllers ends with. -/
theorem created_err (env : GpuEnv) (page nAddrs : Nat) :
    ∀ (ctrls : List Ctrl) (j : Nat) (addrs : List (BitVec 64)),
      (mapControllers env page nAddrs j ctrls.length addrs).2 = (created env ctrls j).2 := by
  intro ctrls
  induction ctrls with
  | nil =>
    intro j addrs
    rfl
  | cons ctrl rest ih =>
    intro j addrs
    simp only [List.length_cons, mapControllers, created]
    cases env.dmaMapPages j with
    | error e => rfl
    | ok d => exact ih (j + 1) _

/-! ## From the map to the release -/

/-- GPU memory is mapped for the controllers `ctrls` and released when the list is `later`: every
mapping made is stored inside the array; each call of the release passes a mapping together with the
device it was made for; and each mapping of a controller in `later` is passed once. -/
def TornDown (env : GpuEnv) (ctrls later : List Ctrl) : Prop :=
  ∃ ms err calls, storeMappings env ctrls 0 noMappings = some (ms, err) ∧
    unmapMappings ms later 0 = some calls ∧
    (∀ x ∈ calls, x.2 ∈ (created env ctrls 0).1 ∧ x.1 = x.2.pdev) ∧
    ∀ m ∈ (created env ctrls 0).1, m.pdev ∈ later.map Ctrl.pdev → (calls.map Prod.snd).count m = 1

/-- At most 64 mappings are made, the list does not grow beyond 64 controllers when all entries are in
use, and it agrees position by position with the devices that the mappings were made for. -/
structure Agree (made : List P2pMapping) (later : List Ctrl) : Prop where
  fits : made.length ≤ maxNumCtrls
  walk : made.length = maxNumCtrls → later.length ≤ maxNumCtrls
  order : made.map P2pMapping.pdev <+: later.map Ctrl.pdev ∨
    later.map Ctrl.pdev <+: made.map P2pMapping.pdev

/-- Lists that agree where both have an element. -/
theorem zip_agree {made : List P2pMapping} :
    ∀ {devs : List Nat}, (∀ x ∈ devs.zip made, x.1 = x.2.pdev) ↔
      (made.map P2pMapping.pdev <+: devs ∨ devs <+: made.map P2pMapping.pdev) := by
  induction made with
  | nil =>
    intro devs
    simp
  | cons m made ih =>
    intro devs
    cases devs with
    | nil => simp
    | cons d devs =>
      simp only [List.zip_cons_cons, List.forall_mem_cons, ih, List.map_cons,
        List.cons_prefix_cons]
      constructor
      · rintro ⟨rfl, h | h⟩
        · exact .inl ⟨rfl, h⟩
        · exact .inr ⟨rfl, h⟩
      · rintro (⟨rfl, h⟩ | ⟨rfl, h⟩)
        · exact ⟨rfl, .inl h⟩
        · exact ⟨rfl, .inr h⟩

theorem map_snd_zip_take {α β : Type} :
    ∀ (l : List α) (m : List β), (l.zip m).map Prod.snd = m.take l.length
  | [], _ => by simp
  | _ :: _, [] => by simp
  | _ :: l, _ :: m => by simp [map_snd_zip_take l m]

/-- A mapping is passed once if its device is in the list. -/
theorem passed_once {made : List P2pMapping} {devs : List Nat}
    (hnd : (made.map P2pMapping.pdev).Nodup)
    (hord : made.map P2pMapping.pdev <+: devs ∨ devs <+: made.map P2pMapping.pdev) {m : P2pMapping}
    (hm : m ∈ made) (hdev : m.pdev ∈ devs) : ((devs.zip made).map Prod.snd).count m = 1 := by
  have hmade : made.Nodup := hnd.of_map _
  rw [map_snd_zip_take]
  refine List.count_eq_one_of_mem (hmade.sublist (List.take_sublist _ _)) ?_
  rcases hord with hord | hord
  · have hlen : made.length ≤ devs.length := by simpa using hord.length_le
    rwa [List.take_of_length_le hlen]
  · -- the device is found among the first ones, and only this mapping has it
    rw [List.prefix_iff_eq_take] at hord
    rw [hord, ← List.map_take] at hdev
    obtain ⟨x, hx, heq⟩ := List.mem_map.mp hdev
    have : x = m := List.inj_on_of_nodup_map hnd (List.mem_of_mem_take hx) hm heq
    exact this ▸ hx

/-- For every list of controllers that probes and removals lead to when the memory is mapped, whatever
the list has become by the release, and every outcome of the mapping calls: all is torn down as it
should be exactly if the later list agrees with what was mapped. -/
theorem gpu_teardown_exact (max : BitVec 32) (env : GpuEnv)
    {tr : List (CtrlState × CtrlState.Label)} {s : CtrlState}
    (hr : Run (CtrlState.step max) .init tr s) (later : List Ctrl) :
    TornDown env s.ctrlList later ↔ Agree (created env s.ctrlList 0).1 later := by
  have hlisted : s.Listed :=
    Run.inv_all CtrlState.Listed (fun _ _ _ h hs => CtrlState.step_listed h hs) hr
      CtrlState.init_listed
  have hnd : ((created env s.ctrlList 0).1.map P2pMapping.pdev).Nodup :=
    hlisted.pdevs.sublist (created_pdev env s.ctrlList 0).sublist
  have hstore := storeMappings_all env s.ctrlList
  constructor
  · rintro ⟨ms, err, calls, hs, hu, hown, -⟩
    rw [hstore] at hs
    split at hs
    · rename_i hfits
      cases hs
      rw [unmapMappings_all hfits] at hu
      split at hu
      · cases hu
      · rename_i hwalk
        cases hu
        refine ⟨hfits, by omega, zip_agree.mp ?_⟩
        intro x hx
        exact (hown x hx).2
    · cases hs
  · rintro ⟨hfits, hwalk, hord⟩
    refine ⟨_, _, (later.map Ctrl.pdev).zip (created env s.ctrlList 0).1,
      by rw [hstore, if_pos hfits], ?_, ?_, ?_⟩
    · rw [unmapMappings_all hfits, if_neg (by omega)]
    · intro x hx
      exact ⟨(List.of_mem_zip hx).2, zip_agree.mpr hord x hx⟩
    · intro m hm hdev
      exact passed_once hnd hord hm hdev

/-- Every controller is mapped. -/
def GpuEnv.ok : GpuEnv := ⟨true, true, true, .ok, fun _ => .ok fun _ => 0⟩

/-- A controller is added between the mapping and its release. -/
theorem gpu_teardown_exact_added :
    ∃ tr s tr' s', Run (CtrlState.step 64) .init tr s ∧ Run (CtrlState.step 64) s tr' s' ∧
      s'.ctrlList.length = s.ctrlList.length + 1 ∧ TornDown .ok s.ctrlList s'.ctrlList := by
  have hr : Run (CtrlState.step 64) .init _ _ := .cons (l := .probe 7 .ok) rfl .refl
  refine ⟨_, _, _, _, hr, .cons (l := .probe 8 .ok) rfl .refl, rfl,
    (gpu_teardown_exact 64 .ok hr _).mpr ?_⟩
  exact ⟨by decide, by decide, .inl (by decide)⟩

/-- The first of two controllers is removed: its mapping is passed with the second one's device. -/
theorem gpu_teardown_shifted :
    ¬ ∀ (max : BitVec 32) (env : GpuEnv) (tr tr' : List (CtrlState × CtrlState.Label))
      (s s' : CtrlState), Run (CtrlState.step max) .init tr s → Run (CtrlState.step max) s tr' s' →
        TornDown env s.ctrlList s'.ctrlList := by
  intro h
  have hr : Run (CtrlState.step 64) .init _ _ :=
    .cons (l := .probe 7 .ok) rfl (.cons (l := .probe 8 .ok) rfl .refl)
  obtain ⟨ms, err, calls, hs, hu, hown, -⟩ := h 64 .ok _ _ _ _ hr (.cons (l := .remove 7) rfl .refl)
  have hms : storeMappings .ok [⟨7, 0⟩, ⟨8, 1⟩] 0 noMappings =
      some (some ⟨0, 7⟩ :: some ⟨1, 8⟩ :: List.replicate 62 none, none) := by decide
  rw [show CtrlState.ctrlList _ = [⟨7, 0⟩, ⟨8, 1⟩] from rfl, hms] at hs
  cases hs
  cases hu
  have := (hown (8, ⟨0, 7⟩) (by decide)).2
  revert this
  decide

end Drv
end UGDS
