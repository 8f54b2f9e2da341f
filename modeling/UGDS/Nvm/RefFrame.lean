import UGDS.Nvm.RefCalls

/-!
# UGDS.Nvm.RefFrame

What the calls of libnvm leave as it is: the handles, references and controllers that the caller has,
but for the one that a call makes or takes, and the descriptors of other controllers.

* `Keeps`: nothing of the caller's changes, and a descriptor that was not there has a new number.
* `nvmDmaMapRange_frame`, `nvmAqCreate_frame`: a call that fails keeps everything, one that succeeds
  adds an object. `nvmDmaUnmap_keeps`, `nvmAqDestroy_keeps`, `nvmCtrlFree_keeps`: one goes away.
* `nvmDmaMapRange_ok`, `nvmAqCreate_ok`: with everything at hand they succeed.
-/

namespace UGDS
namespace Nvm

open Lib RefTable

namespace Refs

structure Keeps (s s' : Refs) : Prop where
  handles : s'.handles = s.handles
  refs : s'.refs = s.refs
  owned : s'.owned = s.owned
  next : s.next ≤ s'.next
  maps : ∀ e' ∈ s'.maps,
    (∃ e ∈ s.maps, e.id = e'.id ∧ e.val.ctrl = e'.val.ctrl) ∨ s.next ≤ e'.id

section Keeps

variable {s s' s'' : Refs} {c m : Nat}

theorem Keeps.refl (s : Refs) : Keeps s s :=
  ⟨rfl, rfl, rfl, Nat.le_refl _, fun e he => .inl ⟨e, he, rfl, rfl⟩⟩

theorem Keeps.trans (h : Keeps s s') (h' : Keeps s' s'') : Keeps s s'' := by
  refine ⟨h'.handles.trans h.handles, h'.refs.trans h.refs, h'.owned.trans h.owned,
    h.next.trans h'.next, fun e'' he'' => ?_⟩
  rcases h'.maps e'' he'' with ⟨e', he', hid', hc'⟩ | hnew
  · rcases h.maps e' he' with ⟨e, he, hid, hc⟩ | hnew
    · exact .inl ⟨e, he, hid.trans hid', hc.trans hc'⟩
    · exact .inr (hid' ▸ hnew)
  · exact .inr (h.next.trans hnew)

theorem ctrlGet_keeps (h : ctrlGet s c = some s') : Keeps s s' := by
  obtain ⟨t, -, rfl⟩ := Option.map_eq_some_iff.mp h
  exact { Keeps.refl s with }

theorem ctrlPut_keeps (h : ctrlPut s c = some s') : Keeps s s' := by
  obtain ⟨x, -, rfl⟩ := Option.map_eq_some_iff.mp h
  exact { Keeps.refl s with }

/-- The descriptors only go away or change otherwise than in their numbers and controllers. -/
theorem Keeps.of_maps {t : List (Counted MapVal)} {evs : List Ev}
    (h : ∀ e' ∈ t, ∃ e ∈ s.maps, e.id = e'.id ∧ e.val.ctrl = e'.val.ctrl) :
    Keeps s { s with maps := t, events := evs } :=
  ⟨rfl, rfl, rfl, Nat.le_refl _, fun e' he' => .inl (h e' he')⟩

theorem mem_setCount_maps {t : List (Counted MapVal)} {n : Nat} {e' : Counted MapVal}
    (h : e' ∈ setCount t m n) : ∃ e ∈ t, e.id = e'.id ∧ e.val.ctrl = e'.val.ctrl := by
  obtain ⟨e, he, rfl⟩ := List.mem_map.mp h
  refine ⟨e, he, ?_⟩
  split <;> exact ⟨rfl, rfl⟩

theorem mem_drop_maps {t : List (Counted MapVal)} {e' : Counted MapVal} (h : e' ∈ drop t m) :
    ∃ e ∈ t, e.id = e'.id ∧ e.val.ctrl = e'.val.ctrl :=
  ⟨e', (List.mem_filter.mp h).1, rfl, rfl⟩

theorem newMap_keeps (s : Refs) (c : Nat) : Keeps s (s.newMap c) := by
  refine ⟨rfl, rfl, rfl, Nat.le_succ _, fun e' he' => ?_⟩
  rcases List.mem_append.mp he' with he' | he'
  · exact .inl ⟨e', he', rfl, rfl⟩
  · rw [List.mem_singleton.mp he']
    exact .inr (Nat.le_refl _)

theorem removeMap_keeps (h : removeMap s m c = some s') : Keeps s s' := by
  obtain ⟨s₁, h₁, rfl⟩ := Option.map_eq_some_iff.mp h
  exact (ctrlPut_keeps h₁).trans (Keeps.of_maps fun e' he' => mem_drop_maps he')

theorem setUnmap_keeps (s : Refs) (m : Nat) : Keeps s (setUnmap s m) := by
  refine Keeps.of_maps fun e' he' => ?_
  obtain ⟨e, he, rfl⟩ := List.mem_map.mp he'
  refine ⟨e, he, ?_⟩
  split <;> exact ⟨rfl, rfl⟩

theorem getMap_keeps (h : getMap s m = some s') : Keeps s s' := by
  obtain ⟨t, ht, rfl⟩ := Option.map_eq_some_iff.mp h
  refine Keeps.of_maps fun e' he' => ?_
  simp only [RefTable.get] at ht
  split at ht
  · cases ht
  · cases ht
    exact mem_setCount_maps he'

theorem putMap_keeps (h : putMap s m = some s') : Keeps s s' := by
  unfold putMap at h
  rcases hp : put 32 s.maps m with _ | ⟨t, _ | v⟩
  · rw [hp] at h
    cases h
  all_goals
    have hmaps : ∀ e' ∈ t, ∃ e ∈ s.maps, e.id = e'.id ∧ e.val.ctrl = e'.val.ctrl := by
      intro e' he'
      simp only [put] at hp
      split at hp
      · cases hp
      · split at hp <;> cases hp
        first
          | exact mem_drop_maps he'
          | exact mem_setCount_maps he'
    rw [hp] at h
  · cases h
    exact Keeps.of_maps hmaps
  · exact (Keeps.of_maps hmaps).trans (ctrlPut_keeps h)

theorem createMap_keeps {env : MapEnv} {r : Except Errno Nat} (h : createMap s c env = some (r, s')) :
    Keeps s s' ∧ ∀ m, r = .ok m → s.next ≤ m := by
  unfold createMap at h
  split at h
  · cases h
  rename_i s₁ hg
  have hk := ctrlGet_keeps hg
  split at h
  · cases h
    exact ⟨.refl s, fun m hm => by cases hm⟩
  split at h
  · obtain ⟨s₂, hp, he⟩ := Option.map_eq_some_iff.mp h
    cases he
    exact ⟨hk.trans (ctrlPut_keeps hp), fun m hm => by cases hm⟩
  split at h
  · obtain ⟨s₂, hp, he⟩ := Option.map_eq_some_iff.mp h
    cases he
    exact ⟨hk.trans (ctrlPut_keeps hp), fun m hm => by cases hm⟩
  · cases h
    refine ⟨hk.trans (newMap_keeps s₁ c), fun m hm => ?_⟩
    cases hm
    exact hk.next

/-- A mapping that is refused keeps everything; otherwise there is a handle on a new descriptor. -/
theorem nvmDmaMapRange_frame {env : MapEnv} {r : Option Errno}
    (h : nvmDmaMapRange s c env = some (r, s')) :
    (∀ e, r = some e → Keeps s s') ∧
      (r = none → ∃ s₁ m, Keeps s s₁ ∧ s.next ≤ m ∧ s' = s₁.addHandle m) := by
  unfold nvmDmaMapRange at h
  split at h
  · cases h
    exact ⟨fun _ _ => .refl s, fun hr => by cases hr⟩
  unfold nvmDmaInit at h
  split at h
  · cases h
  · rename_i hcr
    cases h
    exact ⟨fun _ _ => (createMap_keeps hcr).1, fun hr => by cases hr⟩
  rename_i m s₁ hcr
  obtain ⟨hk, hm⟩ := createMap_keeps hcr
  split at h
  · obtain ⟨s₂, hp, he⟩ := Option.map_eq_some_iff.mp h
    cases he
    exact ⟨fun _ _ => hk.trans (removeMap_keeps hp), fun hr => by cases hr⟩
  split at h
  · obtain ⟨s₂, hp, he⟩ := Option.map_eq_some_iff.mp h
    cases he
    exact ⟨fun _ _ => hk.trans (removeMap_keeps hp), fun hr => by cases hr⟩
  · cases h
    exact ⟨(fun e he => by cases he),
      fun _ => ⟨setUnmap s₁ m, m, hk.trans (setUnmap_keeps s₁ m), hm m rfl, rfl⟩⟩

theorem refGet_keeps {env : AqEnv} {r : Option Errno} (h : refGet s c env = some (r, s')) :
    Keeps s s' := by
  unfold refGet at h
  split at h
  · cases h
  rename_i s₁ hg
  have hk := ctrlGet_keeps hg
  split at h
  · cases h
    exact .refl s
  split at h
  · obtain ⟨s₂, hp, he⟩ := Option.map_eq_some_iff.mp h
    cases he
    exact hk.trans (ctrlPut_keeps hp)
  split at h
  · obtain ⟨s₂, hp, he⟩ := Option.map_eq_some_iff.mp h
    cases he
    exact hk.trans (ctrlPut_keeps hp)
  · cases h
    exact hk

theorem remap_keeps {env : MapEnv} {r : Option Errno} (h : remap s m env = some (r, s')) :
    Keeps s s' := by
  unfold remap at h
  split at h
  · cases h
  rename_i s₁ hg
  have hk := getMap_keeps hg
  split at h
  · cases h
    exact .refl s
  split at h
  · obtain ⟨s₂, hp, he⟩ := Option.map_eq_some_iff.mp h
    cases he
    exact hk.trans (putMap_keeps hp)
  · cases h
    exact hk

theorem createAdmin_keeps {env : AqEnv} {r : Option Errno} (h : createAdmin s m env = some (r, s')) :
    Keeps s s' := by
  unfold createAdmin at h
  split at h
  · cases h
    exact .refl s
  split at h
  · cases h
  · rename_i hr
    cases h
    exact remap_keeps hr
  rename_i s₁ hr
  have hk := remap_keeps hr
  split at h
  · obtain ⟨s₂, hp, he⟩ := Option.map_eq_some_iff.mp h
    cases he
    exact hk.trans (putMap_keeps hp)
  · cases h
    exact hk

/-- Likewise for an admin reference. -/
theorem nvmAqCreate_frame {n : Nat} {env : AqEnv} {r : Option Errno}
    (h : nvmAqCreate s c n env = some (r, s')) :
    (∀ e, r = some e → Keeps s s') ∧
      (r = none → ∃ s₁ q, Keeps s s₁ ∧
        s' = { s₁ with refs := s₁.refs ++ [⟨s₁.next, c, q⟩], next := s₁.next + 1 }) := by
  unfold nvmAqCreate at h
  split at h
  · cases h
  rename_i x _
  split at h
  · cases h
  · rename_i hg
    cases h
    exact ⟨fun _ _ => refGet_keeps hg, fun hr => by cases hr⟩
  rename_i s₁ hg
  have hk := refGet_keeps hg
  split at h
  · cases h
  · rename_i s₂ ha
    obtain ⟨s₃, hp, he⟩ := Option.map_eq_some_iff.mp h
    cases he
    exact ⟨fun _ _ => (hk.trans (createAdmin_keeps ha)).trans (ctrlPut_keeps hp),
      fun hr => by cases hr⟩
  · rename_i s₂ ha
    cases h
    exact ⟨(fun e he => by cases he), fun _ => ⟨s₂, x.map, hk.trans (createAdmin_keeps ha), rfl⟩⟩

theorem nvmDmaUnmap_keeps {n : Nat} (h : nvmDmaUnmap s n = some s') :
    Keeps { s with handles := s.handles.filter fun y => y.id ≠ n } s' := by
  unfold nvmDmaUnmap at h
  split at h
  · cases h
  · exact putMap_keeps h

theorem nvmAqDestroy_keeps {n : Nat} (h : nvmAqDestroy s n = some s') :
    Keeps { s with refs := s.refs.filter fun y => y.id ≠ n } s' := by
  unfold nvmAqDestroy at h
  split at h
  · cases h
  · obtain ⟨s₁, hp, hc⟩ := Option.bind_eq_some_iff.mp h
    exact (putMap_keeps hp).trans (ctrlPut_keeps hc)

theorem nvmCtrlFree_keeps (h : nvmCtrlFree s c = some s') :
    Keeps { s with owned := s.owned.erase c } s' :=
  ctrlPut_keeps h

/-! ## Calls that succeed -/

theorem nvmDmaMapRange_ok (h : Exact [] [] s) (hlive : c ∈ s.ctrls.map Counted.id)
    (hroom : s.ctrlRefs.count c + 1 < 2 ^ 32) : ∃ s', nvmDmaMapRange s c .ok = some (none, s') := by
  obtain ⟨t, hget, -⟩ := ctrlGet_exact h (h.ctrl_held hlive) hroom
  simp only [nvmDmaMapRange, MapEnv.ok, nvmDmaInit, createMap, hget]
  exact ⟨_, rfl⟩

theorem nvmAqCreate_ok {n : Nat} {x : Handle} (h : Exact [] [] s)
    (hlive : c ∈ s.ctrls.map Counted.id) (hroom : s.ctrlRefs.count c + 1 < 2 ^ 32)
    (hx : findHandle s n = some x) (hroom' : s.holders.count x.map + 1 < 2 ^ 32) :
    ∃ s', nvmAqCreate s c n .ok = some (none, s') := by
  obtain ⟨t, hget, hex⟩ := ctrlGet_exact h (h.ctrl_held hlive) hroom
  obtain ⟨t', hmap, -⟩ := getMap_exact hex (holders_of_handle (findHandle_mem hx).1) hroom'
  have href : refGet s c .ok = some (none, { s with ctrls := t }) := by
    simp only [refGet, hget]
    rfl
  have hadmin : createAdmin { s with ctrls := t } x.map .ok =
      some (none, { s with ctrls := t, maps := t' }) := by
    simp only [createAdmin, AqEnv.ok, remap, hmap]
    rfl
  simp only [nvmAqCreate, hx, href, hadmin]
  exact ⟨_, rfl⟩

end Keeps

end Refs

end Nvm
end UGDS
