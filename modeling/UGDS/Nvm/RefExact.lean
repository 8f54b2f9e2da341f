import UGDS.Nvm.Refs

/-!
# UGDS.Nvm.RefExact

The invariant of the reference counting of libnvm.

Inside a call the counters are right once the references that the call itself holds are counted in:
`Exact hm hc` is the invariant with the call holding one reference to each descriptor in `hm` and to
each controller in `hc`. Taking and giving back a reference moves it in and out of these lists, and
so does storing it in a handle, a descriptor or an admin reference.

* `ctrlGet_exact`, `ctrlPut_exact`, `getMap_exact`, `putMap_exact`: references taken and given back.
* `newMap_exact`, `addHandle_exact`, `addRef_exact`: references stored in a new object.
* `takeHandle_exact`, `takeRef_exact`: references left by an object that goes away.
-/

namespace UGDS
namespace Nvm

open Lib RefTable

namespace Refs

/-! ## The invariant -/

/-- The descriptors that live handles are on. -/
def holders (s : Refs) : List Nat := s.handles.map Handle.map ++ s.refs.map AqRef.qmem

/-- The references to controllers. -/
def ctrlRefs (s : Refs) : List Nat :=
  s.owned ++ s.maps.map (fun e => e.val.ctrl) ++ s.refs.map AqRef.ctrl

def opens (evs : List Ev) : List Nat := evs.filterMap fun
  | .openDevice c => some c
  | _ => none

def releases (evs : List Ev) : List Nat := evs.filterMap fun
  | .releaseDevice c => some c
  | _ => none

def mapRanges (evs : List Ev) : List Nat := evs.filterMap fun
  | .mapRange m => some m
  | _ => none

def unmapRanges (evs : List Ev) : List Nat := evs.filterMap fun
  | .unmapRange m _ => some m
  | _ => none

/-- The descriptors whose range is mapped. -/
def mapped (t : List (Counted MapVal)) : List Nat :=
  (t.filter fun e => e.val.mapped).map Counted.id

/-- `b` after `a` is not an `unmap_range` on a device that has been released. -/
def InOrder (a b : Ev) : Prop := ∀ c m, a = .releaseDevice c → b ≠ .unmapRange m c

/-- Every device opened is open or was released, every range mapped is mapped or was unmapped, each
once; ranges are unmapped while the device is open, and then the descriptor is gone. -/
structure Logged (s : Refs) : Prop where
  opens : (opens s.events).Perm (releases s.events ++ s.ctrls.map Counted.id)
  opens_nodup : (Refs.opens s.events).Nodup
  opens_lt : ∀ c ∈ Refs.opens s.events, c < s.next
  ranges : (mapRanges s.events).Perm (unmapRanges s.events ++ mapped s.maps)
  ranges_nodup : (mapRanges s.events).Nodup
  ranges_lt : ∀ m ∈ mapRanges s.events, m < s.next
  gone : ∀ m ∈ unmapRanges s.events, m ∉ s.maps.map Counted.id
  order : s.events.Pairwise InOrder

/-- The numbers given to objects are distinct and below `next`. -/
structure Numbered (s : Refs) : Prop where
  maps_lt : ∀ e ∈ s.maps, e.id < s.next
  ctrls_lt : ∀ e ∈ s.ctrls, e.id < s.next
  handles : (s.handles.map Handle.id).Nodup
  handles_lt : ∀ x ∈ s.handles, x.id < s.next
  refs : (s.refs.map AqRef.id).Nodup
  refs_lt : ∀ x ∈ s.refs, x.id < s.next
  owned : s.owned.Nodup

/-- The counters are right when the call in progress holds a reference to each descriptor in `hm` and
to each controller in `hc`. -/
structure Exact (hm hc : List Nat) (s : Refs) : Prop where
  maps : Tracks 32 s.maps (hm ++ s.holders)
  ctrls : Tracks 32 s.ctrls (hc ++ s.ctrlRefs)
  logged : s.Logged
  numbered : s.Numbered

/-! ## Single references -/

section Logged

variable {s : Refs} {m c : Nat}

/-- A call that unmaps nothing comes in any order. -/
theorem order_snoc {evs : List Ev} {e : Ev} (h : evs.Pairwise InOrder)
    (he : ∀ m c, e ≠ .unmapRange m c) : (evs ++ [e]).Pairwise InOrder := by
  refine List.pairwise_append.mpr ⟨h, List.pairwise_singleton _ _, fun a _ b hb => ?_⟩
  rw [List.mem_singleton.mp hb]
  exact fun c m _ => he m c

/-- `release_device` of a controller that is freed. -/
theorem Logged.release {t : List (Counted Unit)} (h : s.Logged)
    (hp : (s.ctrls.map Counted.id).Perm (c :: t.map Counted.id)) :
    Logged { s with ctrls := t, events := s.events ++ [.releaseDevice c] } := by
  refine ⟨?_, ?_, ?_, ?_, ?_, ?_, ?_, ?_⟩
  · have : (Refs.opens s.events).Perm (releases s.events ++ c :: t.map Counted.id) :=
      h.opens.trans (hp.append_left _)
    simpa [Refs.opens, releases] using this
  · simpa [Refs.opens] using h.opens_nodup
  · simpa [Refs.opens] using h.opens_lt
  · simpa [mapRanges, unmapRanges] using h.ranges
  · simpa [mapRanges] using h.ranges_nodup
  · simpa [mapRanges] using h.ranges_lt
  · simpa [unmapRanges] using h.gone
  · exact order_snoc h.order fun m c' he => by cases he

/-- A device that is open has not been released. -/
theorem Logged.not_released (h : s.Logged) (hc : c ∈ s.ctrls.map Counted.id) :
    .releaseDevice c ∉ s.events := by
  intro hmem
  have hrel : c ∈ releases s.events := List.mem_filterMap.mpr ⟨_, hmem, rfl⟩
  have hnd := h.opens.nodup_iff.mp h.opens_nodup
  exact (List.nodup_append.mp hnd).2.2 c hrel c hc rfl

/-- `unmap_range` of a descriptor that is freed while its device is open. -/
theorem Logged.unmap {t : List (Counted MapVal)} (h : s.Logged)
    (hp : (mapped s.maps).Perm (m :: mapped t)) (hsub : t.map Counted.id ⊆ s.maps.map Counted.id)
    (hm : m ∉ t.map Counted.id) (hc : c ∈ s.ctrls.map Counted.id) :
    Logged { s with maps := t, events := s.events ++ [.unmapRange m c] } := by
  refine ⟨?_, ?_, ?_, ?_, ?_, ?_, ?_, ?_⟩
  · simpa [Refs.opens, releases] using h.opens
  · simpa [Refs.opens] using h.opens_nodup
  · simpa [Refs.opens] using h.opens_lt
  · have : (mapRanges s.events).Perm (unmapRanges s.events ++ m :: mapped t) :=
      h.ranges.trans (hp.append_left _)
    simpa [mapRanges, unmapRanges] using this
  · simpa [mapRanges] using h.ranges_nodup
  · simpa [mapRanges] using h.ranges_lt
  · intro x hx
    have : x ∈ unmapRanges s.events ∨ x = m := by simpa [unmapRanges] using hx
    rcases this with hx | rfl
    · exact fun ht => h.gone x hx (hsub ht)
    · exact hm
  · refine List.pairwise_append.mpr ⟨h.order, List.pairwise_singleton _ _, fun a ha b hb => ?_⟩
    rw [List.mem_singleton.mp hb]
    rintro c' m' rfl he
    cases he
    exact h.not_released hc ha

end Logged

section Refs

variable {s : Refs} {hm hc : List Nat} {m c : Nat}

theorem ctrlGet_exact (h : Exact hm hc s) (hlive : c ∈ hc ++ s.ctrlRefs)
    (hroom : (hc ++ s.ctrlRefs).count c + 1 < 2 ^ 32) :
    ∃ t, ctrlGet s c = some { s with ctrls := t } ∧ Exact hm (c :: hc) { s with ctrls := t } := by
  obtain ⟨t, he, hs, ht⟩ := h.ctrls.get hlive hroom
  have hids := ids_of_shape hs
  have hmem (e : Counted Unit) (hx : e ∈ t) : e.id < s.next := by
    have : e.id ∈ s.ctrls.map Counted.id := hids ▸ List.mem_map_of_mem hx
    obtain ⟨x, hx, hxe⟩ := List.mem_map.mp this
    exact hxe ▸ h.numbered.ctrls_lt x hx
  refine ⟨t, by simp only [ctrlGet, he, Option.map_some], h.maps, ht, ?_, ?_⟩
  · exact { h.logged with opens := by rw [hids]; exact h.logged.opens }
  · exact { h.numbered with ctrls_lt := hmem }

theorem ctrlPut_exact (h : Exact hm (c :: hc) s) :
    ∃ t evs, ctrlPut s c = some { s with ctrls := t, events := evs } ∧
      Exact hm hc { s with ctrls := t, events := evs } := by
  rcases h.ctrls.put with ⟨-, t, he, hs, ht⟩ | ⟨hnot, e, hmem, hid, he, ht⟩
  · have hids := ids_of_shape hs
    have hmem (e : Counted Unit) (hx : e ∈ t) : e.id < s.next := by
      have : e.id ∈ s.ctrls.map Counted.id := hids ▸ List.mem_map_of_mem hx
      obtain ⟨x, hx, hxe⟩ := List.mem_map.mp this
      exact hxe ▸ h.numbered.ctrls_lt x hx
    refine ⟨t, s.events, by simp [ctrlPut, he], h.maps, ht, ?_, ?_⟩
    · exact { h.logged with opens := by rw [hids]; exact h.logged.opens }
    · exact { h.numbered with ctrls_lt := hmem }
  · have hperm : (s.ctrls.map Counted.id).Perm (c :: (drop s.ctrls c).map Counted.id) := by
      have := (filter_ne_perm h.ctrls.ids hmem).map Counted.id
      rwa [List.map_cons, hid] at this
    refine ⟨drop s.ctrls c, s.events ++ [.releaseDevice c], by simp [ctrlPut, he], h.maps, ht,
      h.logged.release hperm, ?_⟩
    exact { h.numbered with
      ctrls_lt := fun x hx => h.numbered.ctrls_lt x (List.mem_filter.mp hx).1 }

/-- The descriptors are the same but for their counters. -/
theorem Exact.recount {hm' : List Nat} {t : List (Counted MapVal)} (h : Exact hm hc s)
    (hs : shape t = shape s.maps) (ht : Tracks 32 t (hm' ++ s.holders)) :
    Exact hm' hc { s with maps := t } := by
  have hids := ids_of_shape hs
  have hmapped : mapped t = mapped s.maps := by
    have hshape (l : List (Counted MapVal)) :
        mapped l = ((shape l).filter fun x => x.2.mapped).map Prod.fst := by
      simp [mapped, shape, List.filter_map, Function.comp_def]
    rw [hshape, hshape, hs]
  have hctrls : t.map (fun e => e.val.ctrl) = s.maps.map fun e => e.val.ctrl := by
    have := congrArg (List.map fun x => x.2.ctrl) hs
    simpa [shape, Function.comp_def] using this
  have hlt (e : Counted MapVal) (he : e ∈ t) : e.id < s.next := by
    have : e.id ∈ s.maps.map Counted.id := hids ▸ List.mem_map_of_mem he
    obtain ⟨x, hx, hxe⟩ := List.mem_map.mp this
    exact hxe ▸ h.numbered.maps_lt x hx
  refine ⟨ht, ?_, ?_, { h.numbered with maps_lt := hlt }⟩
  · simpa only [ctrlRefs, hctrls] using h.ctrls
  · exact { h.logged with
      ranges := by rw [hmapped]; exact h.logged.ranges
      gone := by rw [hids]; exact h.logged.gone }

theorem getMap_exact (h : Exact hm hc s) (hlive : m ∈ hm ++ s.holders)
    (hroom : (hm ++ s.holders).count m + 1 < 2 ^ 32) :
    ∃ t, getMap s m = some { s with maps := t } ∧ Exact (m :: hm) hc { s with maps := t } := by
  obtain ⟨t, he, hs, ht⟩ := h.maps.get hlive hroom
  exact ⟨t, by simp only [getMap, he, Option.map_some], h.recount hs ht⟩

theorem mapped_drop {t : List (Counted MapVal)} {e : Counted MapVal}
    (hnd : (t.map Counted.id).Nodup) (he : e ∈ t) :
    (mapped t).Perm ((if e.val.mapped then [e.id] else []) ++ mapped (drop t e.id)) := by
  have hp := ((filter_ne_perm hnd he).filter fun x => x.val.mapped).map Counted.id
  rw [List.filter_cons] at hp
  split
  · rename_i hm
    rw [if_pos hm, List.map_cons] at hp
    exact hp
  · rename_i hm
    rw [if_neg hm] at hp
    exact hp

/-- A descriptor without references is freed; its reference to the controller is left to be given
back. -/
theorem drop_exact {e : Counted MapVal} (h : Exact (e.id :: hm) hc s) (he : e ∈ s.maps)
    (hnot : e.id ∉ hm ++ s.holders) :
    Exact hm (e.val.ctrl :: hc)
      { s with
        maps := drop s.maps e.id
        events := if e.val.mapped then s.events ++ [.unmapRange e.id e.val.ctrl] else s.events } := by
  have hsub : (drop s.maps e.id).map Counted.id ⊆ s.maps.map Counted.id :=
    (List.filter_sublist.map _).subset
  have hopen : e.val.ctrl ∈ s.ctrls.map Counted.id := by
    refine h.ctrls.live _ ?_
    simp only [ctrlRefs, List.mem_append, List.mem_map]
    exact .inr (.inl (.inr ⟨e, he, rfl⟩))
  have hperm := mapped_drop h.maps.ids he
  refine ⟨h.maps.drop hnot, ?_, ?_, ?_⟩
  · have hp := (filter_ne_perm h.maps.ids he).map fun x => x.val.ctrl
    refine h.ctrls.perm (List.perm_iff_count.mpr fun a => ?_)
    have hcount := hp.count_eq a
    simp only [List.map_cons, List.count_cons] at hcount
    simp only [ctrlRefs, drop, List.cons_append, List.count_cons, List.count_append]
    omega
  · cases hmap : e.val.mapped with
    | false =>
      rw [hmap] at hperm
      exact { h.logged with
        ranges := h.logged.ranges.trans (hperm.append_left _)
        gone := fun x hx hd => h.logged.gone x hx (hsub hd) }
    | true =>
      rw [hmap] at hperm
      exact h.logged.unmap hperm hsub (by simp [drop]) hopen
  · exact { h.numbered with
      maps_lt := fun x hx => h.numbered.maps_lt x (List.mem_filter.mp hx).1 }

theorem putMap_exact (h : Exact (m :: hm) hc s) :
    ∃ s', putMap s m = some s' ∧ Exact hm hc s' := by
  rcases h.maps.put with ⟨-, t, he, hs, ht⟩ | ⟨hnot, e, hmem, rfl, he, -⟩
  · exact ⟨_, by simp only [putMap, he], h.recount hs ht⟩
  · obtain ⟨t, evs, hput, hx⟩ := ctrlPut_exact (drop_exact h hmem hnot)
    exact ⟨_, by simp only [putMap, he]; exact hput, hx⟩

theorem Logged.bump (h : s.Logged) : Logged { s with next := s.next + 1 } :=
  { h with
    opens_lt := fun c hc => Nat.lt_succ_of_lt (h.opens_lt c hc)
    ranges_lt := fun m hm => Nat.lt_succ_of_lt (h.ranges_lt m hm) }

theorem Numbered.bump (h : s.Numbered) : Numbered { s with next := s.next + 1 } :=
  { h with
    maps_lt := fun e he => Nat.lt_succ_of_lt (h.maps_lt e he)
    ctrls_lt := fun e he => Nat.lt_succ_of_lt (h.ctrls_lt e he)
    handles_lt := fun x hx => Nat.lt_succ_of_lt (h.handles_lt x hx)
    refs_lt := fun x hx => Nat.lt_succ_of_lt (h.refs_lt x hx) }

/-- A new descriptor takes over a reference to its controller; its range may have been mapped. -/
theorem newMap_exact (h : Exact hm (c :: hc) s) (b : Bool) :
    Exact (s.next :: hm) hc
      { s with
        maps := s.maps ++ [⟨s.next, 1, ⟨c, b⟩⟩]
        next := s.next + 1
        events := if b then s.events ++ [.mapRange s.next] else s.events } := by
  have hl := h.logged
  have hb := hl.bump
  have hfresh := fresh_of_lt h.numbered.maps_lt
  have hgone (m : Nat) (hm : m ∈ unmapRanges s.events) :
      m ∉ (s.maps ++ [(⟨s.next, 1, ⟨c, b⟩⟩ : Counted MapVal)]).map Counted.id := by
    have hlt := hl.ranges_lt m (hl.ranges.mem_iff.mpr (List.mem_append_left _ hm))
    simp only [List.map_append, List.map_cons, List.map_nil, List.mem_append, List.mem_singleton,
      not_or]
    exact ⟨hl.gone m hm, Nat.ne_of_lt hlt⟩
  refine ⟨h.maps.alloc (by decide) hfresh _, ?_, ?_, ?_⟩
  · refine h.ctrls.perm (List.perm_iff_count.mpr fun a => ?_)
    simp only [ctrlRefs, List.map_append, List.map_cons, List.map_nil, List.count_append,
      List.count_cons, List.count_nil]
    omega
  · cases b with
    | false => exact { hb with ranges := by simpa [mapped] using hl.ranges, gone := hgone }
    | true =>
      refine ⟨?_, ?_, ?_, ?_, ?_, ?_, ?_, ?_⟩
      · simpa [opens, releases] using hl.opens
      · simpa [opens] using hl.opens_nodup
      · simpa [opens] using hb.opens_lt
      · have : (mapRanges s.events ++ [s.next]).Perm
            (unmapRanges s.events ++ mapped s.maps ++ [s.next]) := hl.ranges.append_right _
        simpa [mapRanges, unmapRanges, mapped] using this
      · have := nodup_snoc hl.ranges_nodup fun hx => absurd (hl.ranges_lt s.next hx) (by omega)
        simpa [mapRanges] using this
      · have := snoc_lt (f := id) hb.ranges_lt (Nat.lt_succ_self s.next)
        simpa [mapRanges] using this
      · simpa [unmapRanges] using hgone
      · exact order_snoc hl.order fun m c' he => by cases he
  · have hn := h.numbered.bump
    exact { hn with maps_lt := snoc_lt hn.maps_lt (Nat.lt_succ_self _) }

/-- Setting `unmap` of the newest descriptor. -/
theorem setUnmap_newMap (h : s.Numbered) :
    setUnmap (s.newMap c) s.next =
      { s with
        maps := s.maps ++ [⟨s.next, 1, ⟨c, true⟩⟩]
        next := s.next + 1
        events := s.events ++ [.mapRange s.next] } := by
  have hold : s.maps.map (fun e => if e.id = s.next then
      { e with val := { e.val with mapped := true } } else e) = s.maps := by
    refine (List.map_congr_left fun e he => ?_).trans (List.map_id _)
    exact if_neg (Nat.ne_of_lt (h.maps_lt e he))
  simp only [setUnmap, newMap, List.map_append, hold, List.map_cons, if_true, List.map_nil]

/-- A handle takes over a reference to its descriptor. -/
theorem addHandle_exact (h : Exact (m :: hm) hc s) : Exact hm hc (s.addHandle m) := by
  have hn := h.numbered.bump
  refine ⟨h.maps.perm (List.perm_iff_count.mpr fun a => ?_), h.ctrls, { h.logged.bump with }, ?_⟩
  · simp only [holders, addHandle, List.map_append, List.map_cons, List.map_nil, List.count_append,
      List.count_cons, List.count_nil]
    omega
  · refine { hn with handles := ?_, handles_lt := snoc_lt hn.handles_lt (Nat.lt_succ_self _) }
    simp only [addHandle, List.map_append, List.map_cons, List.map_nil]
    exact nodup_snoc hn.handles (fresh_of_lt h.numbered.handles_lt)

/-- An admin reference takes over a reference to its controller and one to its queue memory. -/
theorem addRef_exact (h : Exact (m :: hm) (c :: hc) s) :
    Exact hm hc { s with refs := s.refs ++ [⟨s.next, c, m⟩], next := s.next + 1 } := by
  have hn := h.numbered.bump
  refine ⟨h.maps.perm (List.perm_iff_count.mpr fun a => ?_),
    h.ctrls.perm (List.perm_iff_count.mpr fun a => ?_), { h.logged.bump with }, ?_⟩
  · simp only [holders, List.map_append, List.map_cons, List.map_nil, List.count_append,
      List.count_cons, List.count_nil]
    omega
  · simp only [ctrlRefs, List.map_append, List.map_cons, List.map_nil, List.count_append,
      List.count_cons, List.count_nil]
    omega
  · refine { hn with refs := ?_, refs_lt := snoc_lt hn.refs_lt (Nat.lt_succ_self _) }
    simp only [List.map_append, List.map_cons, List.map_nil]
    exact nodup_snoc hn.refs (fresh_of_lt h.numbered.refs_lt)

/-- A handle that goes away leaves its reference to the descriptor. -/
theorem takeHandle_exact {x : Handle} (h : Exact hm hc s) (hx : x ∈ s.handles) :
    Exact (x.map :: hm) hc { s with handles := s.handles.filter fun y => y.id ≠ x.id } := by
  have hn := h.numbered
  have hp := (filter_ne_perm hn.handles hx).map Handle.map
  refine ⟨h.maps.perm (List.perm_iff_count.mpr fun a => ?_), h.ctrls, { h.logged with }, ?_⟩
  · have hcount := hp.count_eq a
    simp only [List.map_cons, List.count_cons] at hcount
    simp only [holders, List.cons_append, List.count_cons, List.count_append]
    omega
  · exact { hn with
      handles := hn.handles.sublist (List.filter_sublist.map _)
      handles_lt := fun y hy => hn.handles_lt y (List.mem_filter.mp hy).1 }

/-- An admin reference that goes away leaves its two references. -/
theorem takeRef_exact {x : AqRef} (h : Exact hm hc s) (hx : x ∈ s.refs) :
    Exact (x.qmem :: hm) (x.ctrl :: hc) { s with refs := s.refs.filter fun y => y.id ≠ x.id } := by
  have hn := h.numbered
  have hp := filter_ne_perm hn.refs hx
  refine ⟨h.maps.perm (List.perm_iff_count.mpr fun a => ?_),
    h.ctrls.perm (List.perm_iff_count.mpr fun a => ?_), { h.logged with }, ?_⟩
  · have hcount := (hp.map AqRef.qmem).count_eq a
    simp only [List.map_cons, List.count_cons] at hcount
    simp only [holders, List.cons_append, List.count_cons, List.count_append]
    omega
  · have hcount := (hp.map AqRef.ctrl).count_eq a
    simp only [List.map_cons, List.count_cons] at hcount
    simp only [ctrlRefs, List.cons_append, List.count_cons, List.count_append]
    omega
  · exact { hn with
      refs := hn.refs.sublist (List.filter_sublist.map _)
      refs_lt := fun y hy => hn.refs_lt y (List.mem_filter.mp hy).1 }

end Refs

end Refs

end Nvm
end UGDS
