import UGDS.Nvm.RefExact

/-!
# UGDS.Nvm.RefCalls

That the reference counting of libnvm is exact: every call keeps `Exact [] []`, whichever of its
internal steps fails, and so does every run.

* `step_exact`: a legal call leads from `Exact [] []` to `Exact [] []` when no counter is at its end.
* `refs_exact`: what that means for every state of every run.
* `refs_wrap`: `2^32` handles on one descriptor make its counter 0.
-/

namespace UGDS
namespace Nvm

open Lib RefTable

namespace Refs

/-! ## Calls -/

section Calls

variable {s : Refs} {m c : Nat}

/-- A controller that exists is referenced. -/
theorem Exact.ctrl_held {hm hc : List Nat} (h : Exact hm hc s) (hc' : c ∈ s.ctrls.map Counted.id) :
    c ∈ hc ++ s.ctrlRefs := by
  obtain ⟨e, he, rfl⟩ := List.mem_map.mp hc'
  exact h.ctrls.held e he

/-- `create_map` fails and has given back the controller, or the new descriptor has it. -/
theorem createMap_exact (h : Exact [] [] s) (hlive : c ∈ s.ctrls.map Counted.id)
    (hroom : s.ctrlRefs.count c + 1 < 2 ^ 32) (env : MapEnv) :
    (∃ e s', createMap s c env = some (.error e, s') ∧ Exact [] [] s') ∨
      ∃ s', createMap s c env = some (.ok s'.next, s'.newMap c) ∧ Exact [] [c] s' := by
  obtain ⟨t, hget, hx⟩ := ctrlGet_exact h (h.ctrl_held hlive) hroom
  obtain ⟨t', evs, hput, hy⟩ := ctrlPut_exact hx
  simp only [createMap, hget, hput, Option.map_some]
  by_cases hlock : env.ctrlLock
  · by_cases hmap : env.map
    · cases hinit : env.lock with
      | none => exact .inr ⟨_, by simp [hlock, hmap], hx⟩
      | some e => exact .inl ⟨e, _, by simp [hlock, hmap], hy⟩
    · exact .inl ⟨.ENOMEM, _, by simp [hlock, hmap], hy⟩
  · exact .inl ⟨.ENOSPC, s, by simp [hlock], h⟩

/-- `remove_map` undoes `create_map`. -/
theorem removeMap_newMap (h : Exact [] [c] s) :
    ∃ s', removeMap (s.newMap c) s.next c = some s' ∧ Exact [] [] s' := by
  have hnot : s.next ∉ s.holders := fun hmem =>
    fresh_of_lt h.numbered.maps_lt (h.maps.live _ hmem)
  have hdrop := drop_exact (e := ⟨s.next, 1, ⟨c, false⟩⟩) (newMap_exact h false)
    (List.mem_append_right _ (List.mem_singleton_self _)) hnot
  obtain ⟨t, evs, hput, hx⟩ := ctrlPut_exact hdrop
  refine ⟨_, ?_, hx⟩
  -- `remove_map` gives the controller back before it frees the descriptor
  have hcomm : removeMap (s.newMap c) s.next c =
      ctrlPut { s.newMap c with maps := drop (s.newMap c).maps s.next } c := by
    simp [removeMap, ctrlPut, Option.map_map, Function.comp_def]
  exact hcomm.trans hput

theorem nvmDmaInit_exact (h : Exact [] [] s) (hlive : c ∈ s.ctrls.map Counted.id)
    (hroom : s.ctrlRefs.count c + 1 < 2 ^ 32) (env : MapEnv) :
    ∃ r s', nvmDmaInit s c env = some (r, s') ∧ Exact [] [] s' := by
  rcases createMap_exact h hlive hroom env with ⟨e, s', hcr, hx⟩ | ⟨t, hcr, hx⟩
  · exact ⟨some e, s', by simp only [nvmDmaInit, hcr], hx⟩
  · obtain ⟨s', hrem, hy⟩ := removeMap_newMap hx
    simp only [nvmDmaInit, hcr, hrem, Option.map_some]
    cases createContainer env with
    | some e => exact ⟨some e, s', rfl, hy⟩
    | none =>
      cases dmaMap env with
      | some e => exact ⟨some e, s', rfl, hy⟩
      | none =>
        refine ⟨none, _, rfl, ?_⟩
        rw [setUnmap_newMap hx.numbered]
        exact addHandle_exact (newMap_exact hx true)

theorem nvmDmaMapRange_exact (h : Exact [] [] s) (hlive : c ∈ s.ctrls.map Counted.id)
    (hroom : s.ctrlRefs.count c + 1 < 2 ^ 32) (env : MapEnv) :
    ∃ r s', nvmDmaMapRange s c env = some (r, s') ∧ Exact [] [] s' := by
  cases hr : env.range with
  | some e => exact ⟨some e, s, by simp only [nvmDmaMapRange, hr], h⟩
  | none =>
    simp only [nvmDmaMapRange, hr]
    exact nvmDmaInit_exact h hlive hroom env

theorem nvmDmaMap_exact (h : Exact [] [] s) (hlive : c ∈ s.ctrls.map Counted.id)
    (hroom : s.ctrlRefs.count c + 1 < 2 ^ 32) (env : MapEnv) :
    ∃ r s', nvmDmaMap s c env = some (r, s') ∧ Exact [] [] s' := by
  cases hr : env.range with
  | some e => exact ⟨some e, s, by simp only [nvmDmaMap, hr], h⟩
  | none =>
    rcases createMap_exact h hlive hroom env with ⟨e, s', hcr, hx⟩ | ⟨t, hcr, hx⟩
    · exact ⟨some e, s', by simp only [nvmDmaMap, hr, hcr], hx⟩
    · obtain ⟨s', hrem, hy⟩ := removeMap_newMap hx
      simp only [nvmDmaMap, hr, hcr, hrem, Option.map_some]
      cases createContainer env with
      | some e => exact ⟨some e, s', rfl, hy⟩
      | none => exact ⟨none, _, rfl, addHandle_exact (newMap_exact hx false)⟩

/-- `nvm_dma_remap` up to the new handle: on success the call holds a reference. -/
theorem remap_exact {hc : List Nat} (h : Exact [] hc s) (hlive : m ∈ s.holders)
    (hroom : s.holders.count m + 1 < 2 ^ 32) (env : MapEnv) :
    (∃ e s', remap s m env = some (some e, s') ∧ Exact [] hc s') ∨
      ∃ s', remap s m env = some (none, s') ∧ Exact [m] hc s' := by
  obtain ⟨t, hget, hx⟩ := getMap_exact h hlive hroom
  obtain ⟨s', hput, hy⟩ := putMap_exact hx
  simp only [remap, hget, hput, Option.map_some]
  cases env.mapLock with
  | some e => exact .inl ⟨e, s, rfl, h⟩
  | none =>
    cases createContainer env with
    | some e => exact .inl ⟨e, s', rfl, hy⟩
    | none => exact .inr ⟨_, rfl, hx⟩

theorem findHandle_mem {x : Handle} {n : Nat} (h : findHandle s n = some x) :
    x ∈ s.handles ∧ x.id = n :=
  ⟨List.mem_of_find?_eq_some h, by simpa using List.find?_some h⟩

theorem holders_of_handle {x : Handle} (h : x ∈ s.handles) : x.map ∈ s.holders :=
  List.mem_append_left _ (List.mem_map_of_mem h)

theorem nvmDmaRemap_exact {x : Handle} {n : Nat} (h : Exact [] [] s)
    (hx : findHandle s n = some x) (hroom : s.holders.count x.map + 1 < 2 ^ 32) (env : MapEnv) :
    ∃ r s', nvmDmaRemap s n env = some (r, s') ∧ Exact [] [] s' := by
  have hlive := holders_of_handle (findHandle_mem hx).1
  rcases remap_exact h hlive hroom env with ⟨e, s', hr, hy⟩ | ⟨s', hr, hy⟩
  · exact ⟨some e, s', by simp only [nvmDmaRemap, hx, hr], hy⟩
  · exact ⟨none, _, by simp only [nvmDmaRemap, hx, hr], addHandle_exact hy⟩

theorem nvmDmaUnmap_exact {x : Handle} {n : Nat} (h : Exact [] [] s)
    (hx : findHandle s n = some x) : ∃ s', nvmDmaUnmap s n = some s' ∧ Exact [] [] s' := by
  obtain ⟨hmem, rfl⟩ := findHandle_mem hx
  simp only [nvmDmaUnmap, hx]
  exact putMap_exact (takeHandle_exact h hmem)

/-- `_nvm_ref_get` fails and has given back the controller, or holds it. -/
theorem refGet_exact (h : Exact [] [] s) (hlive : c ∈ s.ctrls.map Counted.id)
    (hroom : s.ctrlRefs.count c + 1 < 2 ^ 32) (env : AqEnv) :
    (∃ e s', refGet s c env = some (some e, s') ∧ Exact [] [] s') ∨
      ∃ t, refGet s c env = some (none, { s with ctrls := t }) ∧
        Exact [] [c] { s with ctrls := t } := by
  obtain ⟨t, hget, hx⟩ := ctrlGet_exact h (h.ctrl_held hlive) hroom
  obtain ⟨t', evs, hput, hy⟩ := ctrlPut_exact hx
  simp only [refGet, hget, hput, Option.map_some]
  by_cases hlock : env.ctrlLock
  · by_cases href : env.ref
    · cases hinit : env.lock with
      | none => exact .inr ⟨t, by simp [hlock, href], hx⟩
      | some e => exact .inl ⟨e, _, by simp [hlock, href], hy⟩
    · exact .inl ⟨.ENOMEM, _, by simp [hlock, href], hy⟩
  · exact .inl ⟨.ENOTTY, s, by simp [hlock], h⟩

theorem createAdmin_exact {hc : List Nat} (h : Exact [] hc s) (hlive : m ∈ s.holders)
    (hroom : s.holders.count m + 1 < 2 ^ 32) (env : AqEnv) :
    (∃ e s', createAdmin s m env = some (some e, s') ∧ Exact [] hc s') ∨
      ∃ s', createAdmin s m env = some (none, s') ∧ Exact [m] hc s' := by
  cases hw : env.window with
  | some e => exact .inl ⟨e, s, by simp only [createAdmin, hw], h⟩
  | none =>
    rcases remap_exact h hlive hroom env.copy with ⟨e, s', hr, hy⟩ | ⟨s', hr, hy⟩
    · exact .inl ⟨e, s', by simp only [createAdmin, hw, hr], hy⟩
    · obtain ⟨s'', hput, hz⟩ := putMap_exact hy
      simp only [createAdmin, hw, hr, hput, Option.map_some]
      by_cases ha : env.admin
      · exact .inr ⟨s', by simp [ha], hy⟩
      · exact .inl ⟨.ENOMEM, s'', by simp [ha], hz⟩

theorem nvmAqCreate_exact {x : Handle} {n : Nat} (h : Exact [] [] s)
    (hlive : c ∈ s.ctrls.map Counted.id) (hroom : s.ctrlRefs.count c + 1 < 2 ^ 32)
    (hx : findHandle s n = some x) (hroom' : s.holders.count x.map + 1 < 2 ^ 32) (env : AqEnv) :
    ∃ r s', nvmAqCreate s c n env = some (r, s') ∧ Exact [] [] s' := by
  have hmem := holders_of_handle (findHandle_mem hx).1
  rcases refGet_exact h hlive hroom env with ⟨e, s', hr, hy⟩ | ⟨t, hr, hy⟩
  · exact ⟨some e, s', by simp only [nvmAqCreate, hx, hr], hy⟩
  · rcases createAdmin_exact hy hmem hroom' env with ⟨e, s', ha, hz⟩ | ⟨s', ha, hz⟩
    · obtain ⟨t', evs, hput, hw⟩ := ctrlPut_exact hz
      exact ⟨some e, _, by simp only [nvmAqCreate, hx, hr, ha, hput, Option.map_some], hw⟩
    · exact ⟨none, _, by simp only [nvmAqCreate, hx, hr, ha], addRef_exact hz⟩

theorem nvmAqDestroy_exact {x : AqRef} {n : Nat} (h : Exact [] [] s)
    (hx : s.refs.find? (fun x => x.id = n) = some x) :
    ∃ s', nvmAqDestroy s n = some s' ∧ Exact [] [] s' := by
  have hmem := List.mem_of_find?_eq_some hx
  have hid : x.id = n := by simpa using List.find?_some hx
  subst hid
  obtain ⟨s', hput, hy⟩ := putMap_exact (takeRef_exact h hmem)
  obtain ⟨t, evs, hput', hz⟩ := ctrlPut_exact hy
  exact ⟨_, by simp only [nvmAqDestroy, hx, hput, Option.bind_some, hput'], hz⟩

theorem nvmCtrlFree_exact (h : Exact [] [] s) (ho : c ∈ s.owned) :
    ∃ s', nvmCtrlFree s c = some s' ∧ Exact [] [] s' := by
  have hfree : Exact [] [c] { s with owned := s.owned.erase c } := by
    refine ⟨h.maps, h.ctrls.perm (List.perm_iff_count.mpr fun a => ?_), { h.logged with },
      { h.numbered with owned := h.numbered.owned.erase c }⟩
    have hcount := (List.perm_cons_erase ho).count_eq a
    simp only [List.count_cons] at hcount
    simp only [ctrlRefs, List.cons_append, List.nil_append, List.count_cons, List.count_append]
    omega
  obtain ⟨t, evs, hput, hx⟩ := ctrlPut_exact hfree
  exact ⟨_, hput, hx⟩

theorem nvmCtrlInit_exact (h : Exact [] [] s) : Exact [] [] s.nvmCtrlInit := by
  have hl := h.logged
  have hb := hl.bump
  have hn := h.numbered.bump
  have hfresh := fresh_of_lt h.numbered.ctrls_lt
  refine ⟨h.maps, ?_, ?_, ?_⟩
  · exact h.ctrls.alloc (by decide) hfresh ()
  · refine ⟨?_, ?_, ?_, ?_, ?_, ?_, ?_, ?_⟩
    · have : (opens s.events ++ [s.next]).Perm
          (releases s.events ++ s.ctrls.map Counted.id ++ [s.next]) := hl.opens.append_right _
      simpa [nvmCtrlInit, opens, releases] using this
    · have := nodup_snoc hl.opens_nodup fun hx => absurd (hl.opens_lt s.next hx) (by omega)
      simpa [nvmCtrlInit, opens] using this
    · have := snoc_lt (f := id) hb.opens_lt (Nat.lt_succ_self s.next)
      simpa [nvmCtrlInit, opens] using this
    · simpa [nvmCtrlInit, mapRanges, unmapRanges] using hl.ranges
    · simpa [nvmCtrlInit, mapRanges] using hl.ranges_nodup
    · simpa [nvmCtrlInit, mapRanges] using hb.ranges_lt
    · simpa [nvmCtrlInit, unmapRanges] using hl.gone
    · exact order_snoc hl.order fun m c' he => by cases he
  · have hown : s.next ∉ s.owned := fun hmem =>
      hfresh (h.ctrls.live _ (by simp [ctrlRefs, hmem]))
    exact { hn with
      ctrls_lt := snoc_lt hn.ctrls_lt (Nat.lt_succ_self _)
      owned := List.nodup_cons.mpr ⟨hown, hn.owned⟩ }

end Calls

/-! ## Runs -/

/-- The caller's side of the contract: controllers that exist, handles and references that it has. -/
def Legal (s : Refs) : Label → Prop
  | .ctrlInit => True
  | .mapRange c _ | .map c _ => c ∈ s.ctrls.map Counted.id
  | .remap h _ | .unmap h => (s.findHandle h).isSome
  | .aqCreate c window _ => c ∈ s.ctrls.map Counted.id ∧ (s.findHandle window).isSome
  | .aqDestroy r => (s.refs.find? fun x => x.id = r).isSome
  | .ctrlFree c => c ∈ s.owned

/-- The counters that the call counts up are not at their end. -/
def Room (s : Refs) : Label → Prop
  | .mapRange c _ | .map c _ => s.ctrlRefs.count c + 1 < 2 ^ 32
  | .remap h _ => ∀ x ∈ s.findHandle h, s.holders.count x.map + 1 < 2 ^ 32
  | .aqCreate c window _ =>
    s.ctrlRefs.count c + 1 < 2 ^ 32 ∧ ∀ x ∈ s.findHandle window, s.holders.count x.map + 1 < 2 ^ 32
  | _ => True

instance (s : Refs) : (l : Label) → Decidable (Room s l)
  | .ctrlInit | .unmap _ | .aqDestroy _ | .ctrlFree _ => inferInstanceAs (Decidable True)
  | .mapRange .. | .map .. => inferInstanceAs (Decidable (_ < _))
  | .remap .. => inferInstanceAs (Decidable (∀ x ∈ _, _))
  | .aqCreate .. => inferInstanceAs (Decidable (_ ∧ ∀ x ∈ _, _))

/-- The live handles on descriptor `m`, those of admin references among them. -/
def liveHandles (s : Refs) (m : Nat) : Nat :=
  (s.handles.filter fun x => x.map = m).length + (s.refs.filter fun x => x.qmem = m).length

/-- The users of controller `c`: its owner, the live descriptors and the live admin references. -/
def ctrlUsers (s : Refs) (c : Nat) : Nat :=
  (if c ∈ s.owned then 1 else 0) + (s.maps.filter fun e => e.val.ctrl = c).length +
    (s.refs.filter fun x => x.ctrl = c).length

section Runs

variable {s s' : Refs} {l : Label} {tr : List (Refs × Label)}

theorem step_exact (h : Exact [] [] s) (hl : Legal s l) (hroom : Room s l) :
    ∃ s', step s l = some s' ∧ Exact [] [] s' := by
  cases l with
  | ctrlInit => exact ⟨_, rfl, nvmCtrlInit_exact h⟩
  | mapRange c env =>
    obtain ⟨r, s', hs, hx⟩ := nvmDmaMapRange_exact h hl hroom env
    exact ⟨s', by simp only [step, hs, Option.map_some], hx⟩
  | map c env =>
    obtain ⟨r, s', hs, hx⟩ := nvmDmaMap_exact h hl hroom env
    exact ⟨s', by simp only [step, hs, Option.map_some], hx⟩
  | remap n env =>
    obtain ⟨x, hx⟩ := Option.isSome_iff_exists.mp hl
    obtain ⟨r, s', hs, hx⟩ := nvmDmaRemap_exact h hx (hroom x hx) env
    exact ⟨s', by simp only [step, hs, Option.map_some], hx⟩
  | unmap n =>
    obtain ⟨x, hx⟩ := Option.isSome_iff_exists.mp hl
    exact nvmDmaUnmap_exact h hx
  | aqCreate c n env =>
    obtain ⟨x, hx⟩ := Option.isSome_iff_exists.mp hl.2
    obtain ⟨r, s', hs, hx⟩ := nvmAqCreate_exact h hl.1 hroom.1 hx (hroom.2 x hx) env
    exact ⟨s', by simp only [step, hs, Option.map_some], hx⟩
  | aqDestroy n =>
    obtain ⟨x, hx⟩ := Option.isSome_iff_exists.mp hl
    exact nvmAqDestroy_exact h hx
  | ctrlFree c =>
    obtain ⟨s', hs, hx⟩ := nvmCtrlFree_exact h hl
    exact ⟨s', by simp only [step, hs]; exact if_pos hl, hx⟩

theorem ctrlGet_live {c : Nat} (h : ctrlGet s c = some s') : c ∈ s.ctrls.map Counted.id := by
  simp only [ctrlGet, RefTable.get] at h
  split at h
  · cases h
  · rename_i e he
    have hid : e.id = c := by simpa using List.find?_some he
    exact hid ▸ List.mem_map_of_mem (List.mem_of_find?_eq_some he)

theorem createMap_live {c : Nat} {env : MapEnv} {r : Except Errno Nat × Refs}
    (h : createMap s c env = some r) : c ∈ s.ctrls.map Counted.id := by
  simp only [createMap] at h
  split at h
  · cases h
  · rename_i hg
    exact ctrlGet_live hg

/-- A step that is taken is legal, or it returned before it used the controller. -/
theorem legal_of_step (h : step s l = some s') : Legal s l ∨ s' = s := by
  cases l with
  | ctrlInit => exact .inl trivial
  | mapRange c env =>
    obtain ⟨r, hr, rfl⟩ := Option.map_eq_some_iff.mp h
    simp only [nvmDmaMapRange, nvmDmaInit] at hr
    split at hr
    · cases hr
      exact .inr rfl
    · split at hr
      · cases hr
      all_goals rename_i hcr; exact .inl (createMap_live hcr)
  | map c env =>
    obtain ⟨r, hr, rfl⟩ := Option.map_eq_some_iff.mp h
    simp only [nvmDmaMap] at hr
    split at hr
    · cases hr
      exact .inr rfl
    · split at hr
      · cases hr
      all_goals rename_i hcr; exact .inl (createMap_live hcr)
  | remap n env =>
    obtain ⟨r, hr, rfl⟩ := Option.map_eq_some_iff.mp h
    simp only [nvmDmaRemap] at hr
    split at hr
    · cases hr
    · rename_i x hx
      exact .inl (by simp [Legal, hx])
  | unmap n =>
    simp only [step, nvmDmaUnmap] at h
    split at h
    · cases h
    · rename_i x hx
      exact .inl (by simp [Legal, hx])
  | aqCreate c n env =>
    obtain ⟨r, hr, rfl⟩ := Option.map_eq_some_iff.mp h
    simp only [nvmAqCreate, refGet] at hr
    split at hr
    · cases hr
    · rename_i x hx
      cases hg : ctrlGet s c with
      | none =>
        rw [hg] at hr
        cases hr
      | some s₁ => exact .inl ⟨ctrlGet_live hg, by simp [hx]⟩
  | aqDestroy n =>
    simp only [step, nvmAqDestroy] at h
    split at h
    · cases h
    · rename_i x hx
      exact .inl (by simp [Legal, hx])
  | ctrlFree c =>
    simp only [step] at h
    split at h
    · rename_i ho
      exact .inl ho
    · cases h

theorem init_exact : Exact [] [] init := by
  refine ⟨⟨?_, ?_, ?_, ?_, ?_⟩, ⟨?_, ?_, ?_, ?_, ?_⟩, ⟨?_, ?_, ?_, ?_, ?_, ?_, ?_, ?_⟩,
    ⟨?_, ?_, ?_, ?_, ?_, ?_, ?_⟩⟩ <;>
    simp [init, holders, ctrlRefs, opens, releases, mapRanges, unmapRanges, mapped]

theorem step_keeps (s : Refs) (l : Label) (s' : Refs) (h : Exact [] [] s) (hg : Room s l)
    (hs : step s l = some s') : Exact [] [] s' := by
  rcases legal_of_step hs with hl | rfl
  · obtain ⟨s₁, hs₁, hx⟩ := step_exact h hl hg
    rw [hs] at hs₁
    cases hs₁
    exact hx
  · exact h

theorem liveHandles_eq (s : Refs) (m : Nat) : s.liveHandles m = s.holders.count m := by
  simp only [liveHandles, holders, List.count_append, count_map]

theorem ctrlUsers_eq (h : s.owned.Nodup) (c : Nat) : s.ctrlUsers c = s.ctrlRefs.count c := by
  have hown : s.owned.count c = if c ∈ s.owned then 1 else 0 := h.count
  simp only [ctrlUsers, ctrlRefs, List.count_append, hown, count_map]

/-- Once per element that is not left, when what there was is what was taken and what is left. -/
theorem count_taken {all taken left : List Nat} (hp : all.Perm (taken ++ left)) (hnd : all.Nodup)
    (a : Nat) : taken.count a = if a ∈ all ∧ a ∉ left then 1 else 0 := by
  have hnd' := hp.nodup_iff.mp hnd
  rw [(List.nodup_append.mp hnd').1.count]
  congr 1
  rw [eq_iff_iff, hp.mem_iff, List.mem_append]
  constructor
  · exact fun h => ⟨.inl h, fun hl => (List.nodup_append.mp hnd').2.2 a h a hl rfl⟩
  · exact fun h => h.1.resolve_right h.2

/-- The counters, and the calls made, in terms of what there is. -/
structure Balanced (s : Refs) : Prop where
  map_exists : ∀ m, m ∈ s.maps.map Counted.id ↔ 0 < s.liveHandles m
  map_count : ∀ e ∈ s.maps, e.count = s.liveHandles e.id
  ctrl_exists : ∀ c, c ∈ s.ctrls.map Counted.id ↔ 0 < s.ctrlUsers c
  ctrl_count : ∀ e ∈ s.ctrls, e.count = s.ctrlUsers e.id
  /-- Each successful `map_range` was on a descriptor of its own. -/
  ranges : (mapRanges s.events).Nodup
  /-- `unmap_range` ran once for every range that was mapped and has no handle any more. -/
  unmaps : ∀ m, (unmapRanges s.events).count m =
    if m ∈ mapRanges s.events ∧ s.liveHandles m = 0 then 1 else 0
  /-- `release_device` ran once for every device that was opened and has no user any more. -/
  releases : ∀ c, (releases s.events).count c =
    if c ∈ opens s.events ∧ s.ctrlUsers c = 0 then 1 else 0
  order : s.events.Pairwise InOrder

theorem Exact.balanced (h : Exact [] [] s) : s.Balanced := by
  have hl := h.logged
  have hheld {α : Type} {t : List (Counted α)} {refs : List Nat} (ht : Tracks 32 t refs) (a : Nat) :
      a ∈ t.map Counted.id ↔ 0 < refs.count a := by
    rw [List.count_pos_iff]
    refine ⟨fun ha => ?_, ht.live a⟩
    obtain ⟨e, he, rfl⟩ := List.mem_map.mp ha
    exact ht.held e he
  have hmap (m : Nat) : m ∈ s.maps.map Counted.id ↔ 0 < s.liveHandles m := by
    rw [liveHandles_eq]
    exact hheld h.maps m
  have hctrl (c : Nat) : c ∈ s.ctrls.map Counted.id ↔ 0 < s.ctrlUsers c := by
    rw [ctrlUsers_eq h.numbered.owned]
    exact hheld h.ctrls c
  refine ⟨hmap, fun e he => ?_, hctrl, fun e he => ?_, hl.ranges_nodup, fun m => ?_, fun c => ?_,
    hl.order⟩
  · rw [liveHandles_eq]
    exact h.maps.count e he
  · rw [ctrlUsers_eq h.numbered.owned]
    exact h.ctrls.count e he
  · rw [count_taken hl.ranges hl.ranges_nodup]
    congr 1
    rw [eq_iff_iff]
    refine and_congr_right fun hm => ?_
    have hsub : m ∈ mapped s.maps → m ∈ s.maps.map Counted.id := fun hx =>
      (List.filter_sublist.map _).subset hx
    constructor
    · intro hnot
      have hun := (List.mem_append.mp (hl.ranges.mem_iff.mp hm)).resolve_right hnot
      exact Nat.eq_zero_of_not_pos fun hpos => hl.gone m hun ((hmap m).mpr hpos)
    · intro hz hx
      exact absurd ((hmap m).mp (hsub hx)) (by omega)
  · rw [count_taken hl.opens hl.opens_nodup]
    congr 1
    rw [eq_iff_iff]
    refine and_congr_right fun _ => ?_
    rw [hctrl]
    omega

/-- In every state of a run whose calls never count a counter up that is at its end, the counters are
exact and `unmap_range` and `release_device` have run when they should; and the next legal call does
not touch what has been freed. -/
theorem refs_exact (hr : Run step init tr s) (hroom : ∀ x ∈ tr, Room x.1 x.2) :
    s.Balanced ∧ (∀ x ∈ tr, x.1.Balanced) ∧
      ∀ l, Legal s l → Room s l → ∃ s', step s l = some s' ∧ s'.Balanced := by
  have hinv := Run.inv (Exact [] []) Room step_keeps hr init_exact hroom
  refine ⟨hinv.1.balanced, fun x hx => (hinv.2 x hx).balanced, fun l hl hg => ?_⟩
  obtain ⟨s', hs, hx⟩ := step_exact hinv.1 hl hg
  exact ⟨s', hs, hx.balanced⟩

/-- Everything that a call asks for is there. -/
def MapEnv.ok : MapEnv := ⟨none, true, none, true, none, true, true, true, none⟩

def AqEnv.ok : AqEnv := ⟨true, true, none, none, .ok, true⟩

/-- A mapping with a second handle and the handle of an admin reference; the controller is freed
before the handles are. -/
theorem refs_exact_teardown :
    ∃ tr s, Run step init tr s ∧ s.Balanced ∧ s.ctrls.isEmpty ∧
      unmapRanges s.events = [1] ∧ releases s.events = [0] := by
  obtain ⟨tr, s, hr, hg, hp⟩ := follow_run step (fun s l => decide (Room s l)) init
    [.ctrlInit, .mapRange 0 .ok, .remap 2 .ok, .aqCreate 0 2 .ok, .ctrlFree 0, .unmap 2,
      .aqDestroy 4, .unmap 3]
    (fun s => s.ctrls.isEmpty && unmapRanges s.events == [1] && releases s.events == [0])
    (by decide +kernel)
  simp only [Bool.and_eq_true, beq_iff_eq] at hp
  exact ⟨tr, s, hr, (refs_exact hr fun x hx => of_decide_eq_true (hg x hx)).1, hp.1.1, hp.1.2, hp.2⟩

/-- `n` more handles on a mapping. -/
theorem remaps_run (n : Nat) :
    ∃ tr s, Run step init tr s ∧ s.maps = [⟨1, (n + 1) % 2 ^ 32, ⟨0, true⟩⟩] ∧
      s.findHandle 2 = some ⟨2, 1⟩ ∧ s.liveHandles 1 = n + 1 := by
  induction n with
  | zero =>
    exact ⟨_, _, .cons (l := .ctrlInit) rfl (.cons (l := .mapRange 0 .ok) rfl .refl), rfl, rfl, rfl⟩
  | succ n ih =>
    obtain ⟨tr, s, hr, hmaps, hfind, hlive⟩ := ih
    have hstep : step s (.remap 2 .ok) =
        some ({ s with maps := [⟨1, (n + 1 + 1) % 2 ^ 32, ⟨0, true⟩⟩] }.addHandle 1) := by
      simp [step, nvmDmaRemap, hfind, remap, getMap, RefTable.get, setCount, hmaps, MapEnv.ok,
        createContainer]
    refine ⟨_, _, hr.trans (.single hstep), rfl, ?_, ?_⟩
    · simp only [findHandle] at hfind
      simp [findHandle, addHandle, List.find?_append, hfind]
    · have hone : ([(⟨s.next, 1⟩ : Handle)].filter fun x => x.map = 1).length = 1 := rfl
      simp only [liveHandles, addHandle, List.filter_append, List.length_append, hone] at hlive ⊢
      omega

/-- The counter of a mapping with `2^32` handles is 0. -/
theorem refs_wrap : ∃ tr s, Run step init tr s ∧ ¬ s.Balanced := by
  obtain ⟨tr, s, hr, hmaps, -, hlive⟩ := remaps_run (2 ^ 32 - 1)
  refine ⟨tr, s, hr, fun h => ?_⟩
  have hc := h.map_count ⟨1, (2 ^ 32 - 1 + 1) % 2 ^ 32, ⟨0, true⟩⟩ (by simp [hmaps])
  have hz : (2 ^ 32 - 1 + 1) % 2 ^ 32 = 0 := rfl
  simp only [hlive, hz] at hc
  omega

end Runs

end Refs

end Nvm
end UGDS
