import UGDS.Api.Rollback
import UGDS.Nvm.RefFrame

/-!
# UGDS.Api.RegRefs

The reference counting of libnvm under the calls of a registration.

* `RegRefs.step`: the calls on the counters. The outcome of a mapping and of `nvm_aq_create` is that of
  the registration, for whatever reason inside the library.
* `Follows`: the objects that exist are those of before and those that the registration holds.
  `Follows.step`: one call.
* `Ledgered.settled`: a registration that has given up everything has given up the controller.
-/

namespace UGDS

open Nvm Lib Drv

/-! ## The counters along the calls -/

/-- The counters, and what the registration has: `hs->ctrl`, the handles of its mappings and
`hs->aq_ref`. -/
structure RegRefs where
  refs : Refs
  ctrl : Option Nat
  dmas : List (RegMem × Refs.Handle)
  aq : Option Refs.AqRef

/-- What a mapping and `nvm_aq_create` meet inside the library. -/
structure CountEnv where
  map : Refs.MapEnv
  aq : Refs.AqEnv

namespace RegRefs

/-- A call of the library that has the outcome `ok`; on success there is one object more. -/
def outcome (x : RegRefs) (ok : Bool) (add : Refs → Option RegRefs) :
    Option (Option Errno × Refs) → Option RegRefs
  | none => none
  | some (some _, s) => if ok then none else some { x with refs := s }
  | some (none, s) => if ok then add s else none

/-- `nvm_dma_map_host`. -/
def map (x : RegRefs) (env : CountEnv) (m : RegMem) (ok : Bool) : Option RegRefs :=
  match x.ctrl with
  | none => none
  | some c =>
    x.outcome ok
      (fun s => s.handles.getLast?.map fun d => { x with refs := s, dmas := x.dmas ++ [(m, d)] })
      (x.refs.nvmDmaMapRange c env.map)

/-- `nvm_aq_create`. -/
def aqCreate (x : RegRefs) (env : CountEnv) (ok : Bool) : Option RegRefs :=
  match x.ctrl, x.dmas.find? fun d => d.1 = .aq with
  | some c, some d =>
    x.outcome ok (fun s => s.refs.getLast?.map fun q => { x with refs := s, aq := some q })
      (x.refs.nvmAqCreate c d.2.id env.aq)
  | _, _ => none

def unmap (x : RegRefs) (m : RegMem) : Option RegRefs :=
  match x.dmas.find? fun d => d.1 = m with
  | none => none
  | some d =>
    (x.refs.nvmDmaUnmap d.2.id).map fun s =>
      { x with refs := s, dmas := x.dmas.filter fun y => y.2.id ≠ d.2.id }

def aqDestroy (x : RegRefs) : Option RegRefs :=
  match x.aq with
  | none => none
  | some q => (x.refs.nvmAqDestroy q.id).map fun s => { x with refs := s, aq := none }

def ctrlFree (x : RegRefs) : Option RegRefs :=
  match x.ctrl with
  | none => none
  | some c => (x.refs.nvmCtrlFree c).map fun s => { x with refs := s, ctrl := none }

def step (x : RegRefs) (l : RegAct × CountEnv) : Option RegRefs :=
  match l.1 with
  | .ctrlInit => some { x with refs := x.refs.nvmCtrlInit, ctrl := some x.refs.next }
  | .map m ok => x.map l.2 m ok
  | .aqCreate ok => x.aqCreate l.2 ok
  | .unmap m => x.unmap m
  | .aqDestroy => x.aqDestroy
  | .ctrlFree => x.ctrlFree
  | .alloc _ | .free _ | .cmd .. | .setFh => some x

end RegRefs

/-- What the counters are about. -/
def RegRes.Kept : RegRes → Prop
  | .ctrl | .aqRef | .dma _ => True
  | .buf _ | .cq _ | .sq _ => False

/-- Calls that are nothing to the counters. -/
def RegAct.Silent : RegAct → Prop
  | .alloc _ | .free _ | .cmd .. | .setFh => True
  | _ => False

instance (a : RegAct) : Decidable a.Silent := by
  cases a <;> first | exact .isTrue trivial | exact .isFalse id

/-- Apart from what there was in `s₀`, there are the handles of the mappings in `held`, the admin
reference and the owner's reference to the controller; and all descriptors of that controller are
newer than it. -/
structure Names (s₀ : Refs) (held : Multiset RegRes) (x : RegRefs) : Prop where
  next : s₀.next < x.refs.next
  ctrl : ∀ c, x.ctrl = some c → c = s₀.next
  owned : x.refs.owned = x.ctrl.toList ++ s₀.owned
  handles : x.refs.handles = s₀.handles ++ x.dmas.map Prod.snd
  refs : x.refs.refs = s₀.refs ++ x.aq.toList
  maps : ∀ e ∈ x.refs.maps, e.val.ctrl = s₀.next → s₀.next < e.id
  dmas : ∀ d ∈ x.dmas, s₀.next < d.2.map ∧ s₀.next < d.2.id
  aq : ∀ q, x.aq = some q → s₀.next < q.id
  held_ctrl : x.ctrl.toList.length = held.count .ctrl
  held_dma : ∀ m, (x.dmas.map Prod.fst).count m = held.count (.dma m)
  held_aq : x.aq.toList.length = held.count .aqRef

/-- The same between calls, when the counters are exact. -/
structure Follows (s₀ : Refs) (held : Multiset RegRes) (x : RegRefs) : Prop where
  exact : Refs.Exact [] [] x.refs
  names : Names s₀ held x

section Follows

variable {s₀ s' : Refs} {held held' : Multiset RegRes} {x x' : RegRefs} {env : CountEnv}

theorem Names.keeps (h : Names s₀ held x) (hk : Refs.Keeps x.refs s') :
    Names s₀ held { x with refs := s' } := by
  refine ⟨h.next.trans_le hk.next, h.ctrl, hk.owned.trans h.owned, hk.handles.trans h.handles,
    hk.refs.trans h.refs, fun e he hc => ?_, h.dmas, h.aq, h.held_ctrl, h.held_dma, h.held_aq⟩
  rcases hk.maps e he with ⟨e₁, he₁, hid, hc₁⟩ | hnew
  · rw [← hid]
    exact h.maps e₁ he₁ (hc₁.trans hc)
  · exact h.next.trans_le hnew

theorem Follows.keeps (h : Follows s₀ held x) (hk : Refs.Keeps x.refs s')
    (hx : Refs.Exact [] [] s') : Follows s₀ held { x with refs := s' } :=
  ⟨hx, h.names.keeps hk⟩

/-- Only the controller, the mappings and the admin reference count. -/
theorem Names.congr (h : Names s₀ held x)
    (hc : ∀ r : RegRes, r.Kept → held'.count r = held.count r) : Names s₀ held' x :=
  { h with
    held_ctrl := h.held_ctrl.trans (hc .ctrl trivial).symm
    held_dma := fun m => (h.held_dma m).trans (hc (.dma m) trivial).symm
    held_aq := h.held_aq.trans (hc .aqRef trivial).symm }

/-! ## Room in the counters -/

theorem old_holders (h₀ : Refs.Exact [] [] s₀) {m : Nat} (hm : m ∈ s₀.holders) : m < s₀.next := by
  obtain ⟨e, he, rfl⟩ := List.mem_map.mp (h₀.maps.live m hm)
  exact h₀.numbered.maps_lt e he

theorem old_ctrls (h₀ : Refs.Exact [] [] s₀) {c : Nat} (hc : c ∈ s₀.ctrlRefs) : c < s₀.next := by
  obtain ⟨e, he, rfl⟩ := List.mem_map.mp (h₀.ctrls.live c hc)
  exact h₀.numbered.ctrls_lt e he

/-- What the registration has is no more than it holds. -/
theorem Names.card (h : Names s₀ held x) :
    x.ctrl.toList.length + x.dmas.length + x.aq.toList.length ≤ held.card := by
  let l : List RegRes := x.ctrl.toList.map (fun _ => RegRes.ctrl) ++
    x.dmas.map (fun d => RegRes.dma d.1) ++ x.aq.toList.map fun _ => RegRes.aqRef
  have hle : (l : Multiset RegRes) ≤ held := by
    rw [Multiset.le_iff_count]
    intro r
    have hconst {α : Type} (l : List α) (a : RegRes) :
        (l.map fun _ => a).count r = if a = r then l.length else 0 := by
      rw [List.map_const', List.count_replicate]
      simp
    simp only [l, Multiset.coe_count, List.count_append, hconst]
    by_cases hr : ∃ m, r = .dma m
    · obtain ⟨m, rfl⟩ := hr
      have hdma := h.held_dma m
      rw [← List.count_map_of_injective _ RegRes.dma fun _ _ => RegRes.dma.inj, List.map_map] at hdma
      simpa [Function.comp_def] using hdma.le
    · have hzero : (x.dmas.map fun d => RegRes.dma d.1).count r = 0 := by
        refine List.count_eq_zero.mpr fun hmem => ?_
        obtain ⟨d, -, hd⟩ := List.mem_map.mp hmem
        exact hr ⟨d.1, hd.symm⟩
      have hctrl := h.held_ctrl
      have haq := h.held_aq
      rw [hzero]
      split
      · rename_i hr
        subst hr
        simpa using hctrl.le
      · split
        · rename_i hr
          subst hr
          simpa using haq.le
        · exact Nat.zero_le _
  have := Multiset.card_le_card hle
  simp only [l, Multiset.coe_card, List.length_append, List.length_map] at this
  exact this

/-- The references to descriptors that are newer than the controller are the registration's. -/
theorem Names.holders_new (h : Names s₀ held x) (h₀ : Refs.Exact [] [] s₀) {m : Nat}
    (hm : s₀.next < m) :
    x.refs.holders.count m =
      (x.dmas.map (fun d => d.2.map) ++ x.aq.toList.map Refs.AqRef.qmem).count m := by
  have hold : s₀.holders.count m = 0 := List.count_eq_zero.mpr fun hmem => by
    have := old_holders h₀ hmem
    omega
  simp only [Refs.holders, List.count_append] at hold
  simp only [Refs.holders, h.handles, h.refs, List.map_append, List.map_map, List.count_append]
  simp only [Function.comp_def]
  omega

theorem Follows.holders_le (h : Follows s₀ held x) (h₀ : Refs.Exact [] [] s₀) {m : Nat}
    (hm : s₀.next < m) : x.refs.holders.count m ≤ held.card := by
  have hcard := h.names.card
  rw [h.names.holders_new h₀ hm]
  refine List.count_le_length.trans ?_
  simp only [List.length_append, List.length_map]
  omega

/-- The descriptors of the controller have handles of the registration. -/
theorem Follows.maps_le (h : Follows s₀ held x) (h₀ : Refs.Exact [] [] s₀) :
    (x.refs.maps.map fun e => e.val.ctrl).count s₀.next ≤ x.dmas.length + x.aq.toList.length := by
  rw [count_map]
  have hnd : ((x.refs.maps.filter fun e => e.val.ctrl = s₀.next).map Counted.id).Nodup :=
    h.exact.maps.ids.sublist (List.filter_sublist.map _)
  have hsub : (x.refs.maps.filter fun e => e.val.ctrl = s₀.next).map Counted.id ⊆
      x.dmas.map (fun d => d.2.map) ++ x.aq.toList.map Refs.AqRef.qmem := by
    intro m hm
    obtain ⟨e, he, rfl⟩ := List.mem_map.mp hm
    obtain ⟨he, hc⟩ := List.mem_filter.mp he
    have hnew := h.names.maps e he (of_decide_eq_true hc)
    rw [← List.count_pos_iff, ← h.names.holders_new h₀ hnew, List.count_pos_iff]
    exact h.exact.maps.held e he
  have := (hnd.subperm hsub).length_le
  simpa using this

theorem Follows.ctrlRefs_le (h : Follows s₀ held x) (h₀ : Refs.Exact [] [] s₀) :
    x.refs.ctrlRefs.count s₀.next ≤ 2 * held.card := by
  have hold : s₀.ctrlRefs.count s₀.next = 0 := List.count_eq_zero.mpr fun hmem => by
    have := old_ctrls h₀ hmem
    omega
  have hcard := h.names.card
  have hmaps := h.maps_le h₀
  have hown := List.count_le_length (a := s₀.next) (l := x.ctrl.toList)
  have haq := List.count_le_length (a := s₀.next) (l := x.aq.toList.map Refs.AqRef.ctrl)
  simp only [Refs.ctrlRefs, List.count_append] at hold
  rw [List.length_map] at haq
  simp only [Refs.ctrlRefs, h.names.owned, h.names.refs, List.map_append, List.count_append]
  omega

/-! ## Single calls -/

theorem Names.ctrl_of_held (h : Names s₀ held x) (hc : .ctrl ∈ held) : x.ctrl = some s₀.next := by
  have hpos := Multiset.count_pos.mpr hc
  rw [← h.held_ctrl] at hpos
  cases hx : x.ctrl with
  | none => simp [hx] at hpos
  | some c => rw [h.ctrl c hx]

theorem Follows.live (h : Follows s₀ held x) (hc : .ctrl ∈ held) :
    s₀.next ∈ x.refs.ctrls.map Counted.id := by
  refine h.exact.ctrls.live _ ?_
  simp [Refs.ctrlRefs, h.names.owned, h.names.ctrl_of_held hc]

/-- A handle on a new descriptor. -/
theorem Names.addHandle (h : Names s₀ held x) {n : Nat} (hn : s₀.next < n) (m : RegMem) :
    Names s₀ (.dma m ::ₘ held)
      { x with refs := x.refs.addHandle n, dmas := x.dmas ++ [(m, ⟨x.refs.next, n⟩)] } := by
  refine ⟨h.next.trans (Nat.lt_succ_self _), h.ctrl, h.owned, ?_, h.refs, h.maps, fun d hd => ?_, h.aq,
    ?_, fun m' => ?_, ?_⟩
  · simp [Refs.addHandle, h.handles]
  · rcases List.mem_append.mp hd with hd | hd
    · exact h.dmas d hd
    · rw [List.mem_singleton.mp hd]
      exact ⟨hn, h.next⟩
  · rw [Multiset.count_cons_of_ne (by simp)]
    exact h.held_ctrl
  · have := h.held_dma m'
    simp only [List.map_append, List.map_singleton, List.count_append, List.count_singleton,
      Multiset.count_cons, beq_iff_eq, RegRes.dma.injEq, eq_comm (a := m)]
    omega
  · rw [Multiset.count_cons_of_ne (by simp)]
    exact h.held_aq

/-- A call of the library: when it fails it keeps everything. -/
theorem Follows.outcome (h : Follows s₀ held x) {ok : Bool} {add : Refs → Option RegRefs}
    {r : RegRes} {o : Option Errno} (hx : Refs.Exact [] [] s')
    (hfail : ∀ e, o = some e → Refs.Keeps x.refs s')
    (hadd : ok → o = none → ∀ x', add s' = some x' → Follows s₀ (r ::ₘ held) x')
    (hs : x.outcome ok add (some (o, s')) = some x') :
    Follows s₀ (if ok then r ::ₘ held else held) x' := by
  cases o with
  | some e =>
    cases ok with
    | true => cases hs
    | false =>
      cases hs
      exact h.keeps (hfail e rfl) hx
  | none =>
    cases ok with
    | true => exact hadd rfl rfl x' hs
    | false => cases hs

theorem Follows.map (h : Follows s₀ held x) (h₀ : Refs.Exact [] [] s₀)
    (hroom : 2 * held.card + 1 < 2 ^ 32) (hc : .ctrl ∈ held) (m : RegMem) (ok : Bool) :
    (∃ env x', x.map env m ok = some x') ∧
      ∀ env x', x.map env m ok = some x' → Follows s₀ (if ok then .dma m ::ₘ held else held) x' := by
  have hlive := h.live hc
  have hle := h.ctrlRefs_le h₀
  have hctrl := h.names.ctrl_of_held hc
  refine ⟨?_, fun env x' hx => ?_⟩
  · simp only [RegRefs.map, hctrl]
    cases ok with
    | false => exact ⟨⟨{ Refs.MapEnv.ok with range := some .EINVAL }, .ok⟩, _, rfl⟩
    | true =>
      obtain ⟨s', hs⟩ := Refs.nvmDmaMapRange_ok h.exact hlive (by omega)
      obtain ⟨s₁, n, -, -, rfl⟩ := (Refs.nvmDmaMapRange_frame hs).2 rfl
      refine ⟨⟨.ok, .ok⟩, ?_⟩
      simp [hs, RegRefs.outcome, Refs.addHandle]
  · obtain ⟨r, s', hs, hex⟩ := Refs.nvmDmaMapRange_exact h.exact hlive (by omega) env.map
    simp only [RegRefs.map, hctrl, hs] at hx
    refine h.outcome hex (Refs.nvmDmaMapRange_frame hs).1 (fun _ hr x₁ hx₁ => ?_) hx
    obtain ⟨s₁, n, hk, hn, rfl⟩ := (Refs.nvmDmaMapRange_frame hs).2 hr
    simp only [Refs.addHandle, List.getLast?_concat, Option.map_some] at hx₁
    cases hx₁
    rw [← hctrl]
    exact ⟨hex, (h.names.keeps hk).addHandle (h.names.next.trans_le hn) m⟩

/-- A handle of a mapping that is held. -/
theorem Names.find_dma (h : Names s₀ held x) {m : RegMem} (hm : .dma m ∈ held) :
    ∃ d ∈ x.dmas, d.1 = m ∧ x.dmas.find? (fun d => d.1 = m) = some d := by
  have hpos := Multiset.count_pos.mpr hm
  rw [← h.held_dma m, List.count_pos_iff] at hpos
  exact find_key hpos

theorem Follows.findHandle (h : Follows s₀ held x) {d : RegMem × Refs.Handle} (hd : d ∈ x.dmas) :
    x.refs.findHandle d.2.id = some d.2 := by
  refine find_of_nodup h.exact.numbered.handles ?_
  rw [h.names.handles]
  exact List.mem_append_right _ (List.mem_map_of_mem hd)

/-- An admin reference, when there was none. -/
theorem Names.addRef (h : Names s₀ held x) (hno : .aqRef ∉ held) (c q : Nat) :
    Names s₀ (.aqRef ::ₘ held)
      { x with
        refs := { x.refs with refs := x.refs.refs ++ [⟨x.refs.next, c, q⟩], next := x.refs.next + 1 }
        aq := some ⟨x.refs.next, c, q⟩ } := by
  have hlen := h.held_aq
  rw [Multiset.count_eq_zero.mpr hno, List.length_eq_zero_iff] at hlen
  refine ⟨h.next.trans (Nat.lt_succ_self _), h.ctrl, h.owned, h.handles, ?_, h.maps, h.dmas,
    fun y hy => ?_, ?_, fun m => ?_, ?_⟩
  · simp [h.refs, hlen]
  · cases hy
    exact h.next
  · rw [Multiset.count_cons_of_ne (by simp)]
    exact h.held_ctrl
  · rw [Multiset.count_cons_of_ne (by simp)]
    exact h.held_dma m
  · rw [Multiset.count_cons_self, Multiset.count_eq_zero.mpr hno]
    rfl

theorem Follows.aqCreate (h : Follows s₀ held x) (h₀ : Refs.Exact [] [] s₀)
    (hroom : 2 * held.card + 1 < 2 ^ 32) (hc : .ctrl ∈ held) (hd : .dma .aq ∈ held)
    (ok : Bool) (hno : ok → .aqRef ∉ held) :
    (∃ env x', x.aqCreate env ok = some x') ∧
      ∀ env x', x.aqCreate env ok = some x' →
        Follows s₀ (if ok then .aqRef ::ₘ held else held) x' := by
  obtain ⟨d, hmem, -, hfind⟩ := h.names.find_dma hd
  have hhandle := h.findHandle hmem
  have hlive := h.live hc
  have hrefs : x.refs.ctrlRefs.count s₀.next + 1 < 2 ^ 32 := by
    have := h.ctrlRefs_le h₀
    omega
  have hmap : x.refs.holders.count d.2.map + 1 < 2 ^ 32 := by
    have := h.holders_le h₀ (h.names.dmas d hmem).1
    omega
  have hctrl := h.names.ctrl_of_held hc
  refine ⟨?_, fun env x' hx => ?_⟩
  · simp only [RegRefs.aqCreate, hctrl, hfind]
    cases ok with
    | false =>
      refine ⟨⟨.ok, { Refs.AqEnv.ok with ctrlLock := false }⟩, ?_⟩
      obtain ⟨t, hget, -⟩ := Refs.ctrlGet_exact h.exact (h.exact.ctrl_held hlive) hrefs
      simp [RegRefs.outcome, Refs.nvmAqCreate, hhandle, Refs.refGet, hget]
    | true =>
      obtain ⟨s', hs⟩ := Refs.nvmAqCreate_ok h.exact hlive hrefs hhandle hmap
      obtain ⟨s₁, q, -, rfl⟩ := (Refs.nvmAqCreate_frame hs).2 rfl
      refine ⟨⟨.ok, .ok⟩, ?_⟩
      simp [hs, RegRefs.outcome]
  · obtain ⟨r, s', hs, hex⟩ := Refs.nvmAqCreate_exact h.exact hlive hrefs hhandle hmap env.aq
    simp only [RegRefs.aqCreate, hctrl, hfind, hs] at hx
    refine h.outcome hex (Refs.nvmAqCreate_frame hs).1 (fun hok hr x₁ hx₁ => ?_) hx
    obtain ⟨s₁, q, hk, rfl⟩ := (Refs.nvmAqCreate_frame hs).2 hr
    simp only [List.getLast?_concat, Option.map_some] at hx₁
    cases hx₁
    rw [← hctrl]
    exact ⟨hex, (h.names.keeps hk).addRef (hno hok) _ q⟩

/-- A handle less. The handles of `s₀` have lower numbers. -/
theorem Names.takeHandle (h : Names s₀ held x) (h₀ : s₀.Numbered) (hx : x.refs.Numbered)
    {d : RegMem × Refs.Handle} (hd : d ∈ x.dmas) (hm : .dma d.1 ∈ held) :
    Names s₀ (held.erase (.dma d.1))
      { x with
        refs := { x.refs with handles := x.refs.handles.filter fun y => y.id ≠ d.2.id }
        dmas := x.dmas.filter fun y => y.2.id ≠ d.2.id } := by
  have hheld (r : RegRes) := congrArg (Multiset.count r) (Multiset.cons_erase hm)
  simp only [Multiset.count_cons] at hheld
  have hctrl := hheld .ctrl
  have haq := hheld .aqRef
  rw [if_neg (by simp)] at hctrl haq
  refine ⟨h.next, h.ctrl, h.owned, ?_, h.refs, h.maps, fun y hy => h.dmas y (List.mem_filter.mp hy).1,
    h.aq, h.held_ctrl.trans hctrl.symm, fun m => ?_, h.held_aq.trans haq.symm⟩
  · have hold : s₀.handles.filter (fun y => y.id ≠ d.2.id) = s₀.handles :=
      List.filter_eq_self.mpr fun y hy => by
        have := h₀.handles_lt y hy
        have := (h.dmas d hd).2
        simp
        omega
    show x.refs.handles.filter _ = _
    rw [h.handles, List.filter_append, hold, List.filter_map]
    rfl
  · have hnd : (x.dmas.map fun y => y.2.id).Nodup := by
      have := hx.handles
      rw [h.handles, List.map_append, List.map_map] at this
      exact (List.nodup_append.mp this).2.1
    have hperm := ((filter_ne_perm hnd hd).map Prod.fst).count_eq m
    have hdma := hheld (.dma m)
    have hbefore := h.held_dma m
    simp only [List.map_cons, List.count_cons, beq_iff_eq] at hperm
    simp only [RegRes.dma.injEq, eq_comm (a := m)] at hdma
    show ((x.dmas.filter _).map Prod.fst).count m = _
    omega

theorem Follows.unmap (h : Follows s₀ held x) (h₀ : Refs.Exact [] [] s₀) {m : RegMem}
    (hm : .dma m ∈ held) : ∃ x', x.unmap m = some x' ∧ Follows s₀ (held.erase (.dma m)) x' := by
  obtain ⟨d, hmem, rfl, hfind⟩ := h.names.find_dma hm
  obtain ⟨s', hs, hex⟩ := Refs.nvmDmaUnmap_exact h.exact (h.findHandle hmem)
  simp only [RegRefs.unmap, hfind, hs, Option.map_some]
  refine ⟨_, rfl, hex, ?_⟩
  exact (h.names.takeHandle h₀.numbered h.exact.numbered hmem hm).keeps (Refs.nvmDmaUnmap_keeps hs)

theorem Names.takeRef (h : Names s₀ held x) (h₀ : s₀.Numbered) {q : Refs.AqRef}
    (hq : x.aq = some q) (hm : .aqRef ∈ held) :
    Names s₀ (held.erase .aqRef)
      { x with
        refs := { x.refs with refs := x.refs.refs.filter fun y => y.id ≠ q.id }
        aq := none } := by
  have hheld := congrArg (Multiset.count .aqRef) (Multiset.cons_erase hm)
  have haq := h.held_aq
  rw [Multiset.count_cons_self] at hheld
  rw [hq] at haq
  refine ⟨h.next, h.ctrl, h.owned, h.handles, ?_, h.maps, h.dmas, (fun y hy => by cases hy), ?_,
    fun m => ?_, ?_⟩
  · have hold : s₀.refs.filter (fun y => y.id ≠ q.id) = s₀.refs :=
      List.filter_eq_self.mpr fun y hy => by
        have := h₀.refs_lt y hy
        have := h.aq q hq
        simp
        omega
    show x.refs.refs.filter _ = _
    rw [h.refs, hq, List.filter_append, hold]
    simp
  · rw [Multiset.count_erase_of_ne (by simp)]
    exact h.held_ctrl
  · rw [Multiset.count_erase_of_ne (by simp)]
    exact h.held_dma m
  · have : (some q).toList.length = 1 := rfl
    show 0 = _
    omega

theorem Follows.aqDestroy (h : Follows s₀ held x) (h₀ : Refs.Exact [] [] s₀) (hm : .aqRef ∈ held) :
    ∃ x', x.aqDestroy = some x' ∧ Follows s₀ (held.erase .aqRef) x' := by
  have hpos := Multiset.count_pos.mpr hm
  rw [← h.names.held_aq] at hpos
  cases hq : x.aq with
  | none => simp [hq] at hpos
  | some q =>
    have hmem : q ∈ x.refs.refs := by simp [h.names.refs, hq]
    obtain ⟨s', hs, hex⟩ :=
      Refs.nvmAqDestroy_exact h.exact (find_of_nodup h.exact.numbered.refs hmem)
    simp only [RegRefs.aqDestroy, hq, hs, Option.map_some]
    refine ⟨_, rfl, hex, ?_⟩
    exact (h.names.takeRef h₀.numbered hq hm).keeps (Refs.nvmAqDestroy_keeps hs)

theorem Names.takeCtrl (h : Names s₀ held x) (hm : .ctrl ∈ held) :
    Names s₀ (held.erase .ctrl)
      { x with refs := { x.refs with owned := x.refs.owned.erase s₀.next }, ctrl := none } := by
  have hheld := congrArg (Multiset.count .ctrl) (Multiset.cons_erase hm)
  have hctrl := h.ctrl_of_held hm
  have hlen := h.held_ctrl
  rw [Multiset.count_cons_self] at hheld
  rw [hctrl] at hlen
  refine ⟨h.next, (fun c hc => by cases hc), ?_, h.handles, h.refs, h.maps, h.dmas, h.aq, ?_,
    fun m => ?_, ?_⟩
  · show x.refs.owned.erase _ = _
    rw [h.owned, hctrl]
    exact List.erase_cons_head _ _
  · have : (some s₀.next).toList.length = 1 := rfl
    show 0 = _
    omega
  · rw [Multiset.count_erase_of_ne (by simp)]
    exact h.held_dma m
  · rw [Multiset.count_erase_of_ne (by simp)]
    exact h.held_aq

theorem Follows.ctrlFree (h : Follows s₀ held x) (hm : .ctrl ∈ held) :
    ∃ x', x.ctrlFree = some x' ∧ Follows s₀ (held.erase .ctrl) x' := by
  have hctrl := h.names.ctrl_of_held hm
  obtain ⟨s', hs, hex⟩ :=
    Refs.nvmCtrlFree_exact (c := s₀.next) h.exact (by simp [h.names.owned, hctrl])
  simp only [RegRefs.ctrlFree, hctrl, hs, Option.map_some]
  exact ⟨_, rfl, hex, (h.names.takeCtrl hm).keeps (Refs.nvmCtrlFree_keeps hs)⟩

theorem RegAct.Silent.kept {a : RegAct} (ha : a.Silent) :
    (∀ r ∈ a.call.acquires, ¬r.Kept) ∧ ∀ r ∈ a.call.releases, ¬r.Kept := by
  cases a with
  | alloc m => simp [RegAct.call, Call.acquires, Call.releases, RegRes.Kept]
  | free m => simp [RegAct.call, Call.acquires, Call.releases, RegRes.Kept]
  | cmd c r =>
    simp only [RegAct.call, cmdCall_acquires, cmdCall_releases]
    constructor <;> split_ifs <;> simp [RegRes.Kept]
  | setFh => simp [RegAct.call, Call.acquires, Call.releases]
  | _ => exact ha.elim

theorem RegAct.Silent.count {a : RegAct} (ha : a.Silent) (hc : a.call.apply held = some held')
    {r : RegRes} (hr : r.Kept) : held'.count r = held.count r := by
  have hcount := Call.apply_count hc r
  have hzero {o : Option RegRes} (ho : ∀ r ∈ o, ¬r.Kept) : o.toList.count r = 0 :=
    List.count_eq_zero.mpr fun hmem => ho r (Option.mem_toList.mp hmem) hr
  rw [hzero ha.kept.1, hzero ha.kept.2] at hcount
  omega

theorem RegAct.Silent.step {a : RegAct} (ha : a.Silent) (x : RegRefs) (env : CountEnv) :
    x.step (a, env) = some x := by
  cases a with
  | alloc m => rfl
  | free m => rfl
  | cmd c r => rfl
  | setFh => rfl
  | _ => exact ha.elim

/-- A call that acquires when it succeeds. -/
theorem apply_ite {needs : List RegRes} {r : RegRes} {ok : Bool}
    (h : Call.apply held ⟨needs, if ok then some (.acquire r) else none⟩ = some held') :
    held' = if ok then r ::ₘ held else held := by
  have hop := Call.apply_op h
  cases ok with
  | true => exact (Option.some.inj hop).symm
  | false => exact (Option.some.inj hop).symm

/-- A call that has one result, whatever it meets. -/
theorem Follows.of_some {o : CountEnv → Option RegRefs}
    (h : ∃ x', (∀ env, o env = some x') ∧ Follows s₀ held' x') :
    (∃ env x', o env = some x') ∧ ∀ env x', o env = some x' → Follows s₀ held' x' := by
  obtain ⟨x₁, ho, hx⟩ := h
  refine ⟨⟨⟨.ok, .ok⟩, x₁, ho _⟩, fun env x' he => ?_⟩
  rw [ho env] at he
  cases he
  exact hx

theorem Follows.step (h : Follows s₀ held x) (h₀ : Refs.Exact [] [] s₀)
    (hroom : 2 * held.card + 1 < 2 ^ 32) {a : RegAct} (ha : a ≠ .ctrlInit)
    (hnew : ∀ r ∈ a.call.acquires, r ∉ held) (hc : a.call.apply held = some held') :
    (∃ env x', x.step (a, env) = some x') ∧
      ∀ env x', x.step (a, env) = some x' → Follows s₀ held' x' := by
  by_cases hs : a.Silent
  · exact Follows.of_some
      ⟨x, fun env => hs.step x env, h.exact, h.names.congr fun r hr => hs.count hc hr⟩
  have hneeds := Call.apply_needs hc
  have hop := Call.apply_op hc
  cases a with
  | ctrlInit => exact absurd rfl ha
  | map m ok =>
    rw [apply_ite hc]
    exact h.map h₀ hroom (hneeds .ctrl (by simp [RegAct.call])) m ok
  | aqCreate ok =>
    rw [apply_ite hc]
    refine h.aqCreate h₀ hroom (hneeds .ctrl (by simp [RegAct.call]))
      (hneeds (.dma .aq) (by simp [RegAct.call])) ok ?_
    rintro rfl
    exact hnew .aqRef rfl
  | unmap m =>
    obtain ⟨hm, rfl⟩ := Op.release_apply hop
    obtain ⟨x', hx, hf⟩ := h.unmap h₀ hm
    exact Follows.of_some ⟨x', fun _ => hx, hf⟩
  | aqDestroy =>
    obtain ⟨hm, rfl⟩ := Op.release_apply hop
    obtain ⟨x', hx, hf⟩ := h.aqDestroy h₀ hm
    exact Follows.of_some ⟨x', fun _ => hx, hf⟩
  | ctrlFree =>
    obtain ⟨hm, rfl⟩ := Op.release_apply hop
    obtain ⟨x', hx, hf⟩ := h.ctrlFree hm
    exact Follows.of_some ⟨x', fun _ => hx, hf⟩
  | _ => exact absurd trivial hs

/-! ## All calls -/

theorem Follows.start (h₀ : Refs.Exact [] [] s₀) (hheld : ∀ r ∈ held, ¬r.Kept) :
    Follows s₀ (.ctrl ::ₘ held) ⟨s₀.nvmCtrlInit, some s₀.next, [], none⟩ := by
  have hzero {r : RegRes} (hr : r.Kept) : held.count r = 0 :=
    Multiset.count_eq_zero.mpr fun hmem => hheld r hmem hr
  refine ⟨Refs.nvmCtrlInit_exact h₀, Nat.lt_succ_self _, ?_, rfl, ?_, ?_, ?_, ?_, ?_, ?_, fun m => ?_,
    ?_⟩
  · intro c hc
    exact (Option.some.inj hc).symm
  · exact (List.append_nil _).symm
  · exact (List.append_nil _).symm
  · intro e he hc
    -- the descriptors of `s₀` have controllers that are in use there
    have hlive : s₀.next ∈ s₀.ctrlRefs := by
      rw [Refs.ctrlRefs, ← hc]
      exact List.mem_append_left _ (List.mem_append_right _ (List.mem_map_of_mem he))
    exact absurd (old_ctrls h₀ hlive) (Nat.lt_irrefl _)
  · intro d hd
    cases hd
  · intro q hq
    cases hq
  · rw [Multiset.count_cons_self, hzero (r := .ctrl) trivial]
    rfl
  · rw [Multiset.count_cons_of_ne (by simp), hzero (r := .dma m) trivial]
    rfl
  · rw [Multiset.count_cons_of_ne (by simp), hzero (r := .aqRef) trivial]
    rfl

/-- Before there is a controller, nothing happens to the counters. -/
theorem unopened_step (hheld : ∀ r ∈ held, ¬r.Kept) {a : RegAct} (ha : a ≠ .ctrlInit)
    (hc : a.call.apply held = some held') : a.Silent ∧ ∀ r ∈ held', ¬r.Kept := by
  have hneeds := Call.apply_needs hc
  have hop := Call.apply_op hc
  have hs : a.Silent := by
    cases a with
    | ctrlInit => exact absurd rfl ha
    | map m ok => exact (hheld .ctrl (hneeds .ctrl (by simp [RegAct.call])) trivial).elim
    | aqCreate ok => exact (hheld .ctrl (hneeds .ctrl (by simp [RegAct.call])) trivial).elim
    | unmap m => exact (hheld _ (Op.release_apply hop).1 trivial).elim
    | aqDestroy => exact (hheld _ (Op.release_apply hop).1 trivial).elim
    | ctrlFree => exact (hheld _ (Op.release_apply hop).1 trivial).elim
    | _ => trivial
  refine ⟨hs, fun r hr hk => ?_⟩
  rw [← Multiset.count_pos, hs.count hc hk, Multiset.count_pos] at hr
  exact hheld r hr hk

/-- The calls `acts` are still to be made, while `held` is held. -/
structure Ahead (s₀ : Refs) (acts : List RegAct) (held : Multiset RegRes) (x : RegRefs) : Prop where
  account : account held (acts.map RegAct.call) = some 0
  nodup : (held + (acquired (acts.map RegAct.call) : Multiset RegRes)).Nodup
  room : 2 * (held + (acquired (acts.map RegAct.call) : Multiset RegRes)).card + 1 < 2 ^ 32
  counters : (x = ⟨s₀, none, [], none⟩ ∧ ∀ r ∈ held, ¬r.Kept) ∨
    (Follows s₀ held x ∧ RegAct.ctrlInit ∉ acts)

theorem Ahead.step {a : RegAct} {acts : List RegAct} (h : Ahead s₀ (a :: acts) held x)
    (h₀ : Refs.Exact [] [] s₀) :
    (∃ env x', x.step (a, env) = some x') ∧
      ∀ env x', x.step (a, env) = some x' → ∃ held, Ahead s₀ acts held x' := by
  obtain ⟨k, hk, hacc⟩ := Option.bind_eq_some_iff.mp h.account
  have hle : k + (acquired (acts.map RegAct.call) : Multiset RegRes) ≤
      held + (acquired ((a :: acts).map RegAct.call) : Multiset RegRes) := Call.apply_acquired_le hk
  have hnd := Multiset.nodup_of_le hle h.nodup
  have hroom : 2 * (k + (acquired (acts.map RegAct.call) : Multiset RegRes)).card + 1 < 2 ^ 32 := by
    have := Multiset.card_le_card hle
    have := h.room
    omega
  rcases h.counters with ⟨rfl, hheld⟩ | ⟨hf, hno⟩
  · by_cases ha : a = .ctrlInit
    · subst ha
      obtain rfl : .ctrl ::ₘ held = k := Option.some.inj (Call.apply_op hk)
      refine ⟨⟨⟨.ok, .ok⟩, _, rfl⟩, fun env x' hx => ⟨_, hacc, hnd, hroom, .inr ⟨?_, ?_⟩⟩⟩
      · cases hx
        exact Follows.start h₀ hheld
      · intro hmem
        refine Multiset.disjoint_left.mp (Multiset.nodup_add.mp hnd).2.2
          (Multiset.mem_cons_self _ _) ?_
        exact List.mem_filterMap.mpr ⟨_, List.mem_map_of_mem hmem, rfl⟩
    · obtain ⟨hs, hheld'⟩ := unopened_step hheld ha hk
      refine ⟨⟨⟨.ok, .ok⟩, _, hs.step _ _⟩, fun env x' hx => ⟨k, hacc, hnd, hroom, .inl ⟨?_, hheld'⟩⟩⟩
      rw [hs.step] at hx
      exact (Option.some.inj hx).symm
  · have hnew (r : RegRes) (hr : r ∈ a.call.acquires) : r ∉ held := by
      intro hmem
      refine Multiset.disjoint_left.mp (Multiset.nodup_add.mp h.nodup).2.2 hmem ?_
      rw [Multiset.mem_coe, List.map_cons, acquired_cons]
      exact List.mem_append_left _ (Option.mem_toList.mpr hr)
    have hcard := h.room
    rw [Multiset.card_add] at hcard
    obtain ⟨hex, hall⟩ := hf.step h₀ (by omega) (fun he => hno (he ▸ List.mem_cons_self)) hnew hk
    exact ⟨hex, fun env x' hx => ⟨k, hacc, hnd, hroom,
      .inr ⟨hall env x' hx, fun hmem => hno (List.mem_cons_of_mem _ hmem)⟩⟩⟩

/-- Nothing is left of controller `s₀.next`, which was released if it was opened, and otherwise the
caller has what it had in `s₀`. -/
structure Settled (s₀ s : Refs) : Prop where
  handles : s.handles = s₀.handles
  refs : s.refs = s₀.refs
  owned : s.owned = s₀.owned
  unused : s.ctrlUsers s₀.next = 0
  gone : s₀.next ∉ s.ctrls.map Counted.id
  released : (Refs.releases s.events).count s₀.next = (Refs.opens s.events).count s₀.next

theorem Settled.of_exact {s : Refs} (h : Refs.Exact [] [] s) (hh : s.handles = s₀.handles)
    (hr : s.refs = s₀.refs) (ho : s.owned = s₀.owned) (hc : s.ctrlRefs.count s₀.next = 0) :
    Settled s₀ s := by
  have hb := h.balanced
  have hzero : s.ctrlUsers s₀.next = 0 := by rw [Refs.ctrlUsers_eq h.numbered.owned, hc]
  refine ⟨hh, hr, ho, hzero, ?_, ?_⟩
  · rw [hb.ctrl_exists, hzero]
    exact Nat.lt_irrefl 0
  · rw [hb.releases, h.logged.opens_nodup.count]
    simp [hzero]

theorem Follows.settled (h : Follows s₀ 0 x) (h₀ : Refs.Exact [] [] s₀) : Settled s₀ x.refs := by
  have hcard := h.names.card
  rw [Multiset.card_zero] at hcard
  have hctrl : x.ctrl.toList = [] := List.length_eq_zero_iff.mp (by omega)
  have hdmas : x.dmas = [] := List.length_eq_zero_iff.mp (by omega)
  have haq : x.aq.toList = [] := List.length_eq_zero_iff.mp (by omega)
  refine .of_exact h.exact ?_ ?_ ?_ (Nat.le_zero.mp (h.ctrlRefs_le h₀))
  · rw [h.names.handles, hdmas]
    exact List.append_nil _
  · rw [h.names.refs, haq, List.append_nil]
  · rw [h.names.owned, hctrl, List.nil_append]

theorem Ledgered.card_le {p : Nat} {acts : List RegAct} (h : Ledgered p acts held) :
    (acquired (acts.map RegAct.call)).length ≤ p := by
  have hsub : (acquired (acts.map RegAct.call)).map RegRes.pos ⊆ List.range p := by
    intro n hn
    obtain ⟨r, hr, rfl⟩ := List.mem_map.mp hn
    exact List.mem_range.mpr (h.pos r hr)
  simpa using (h.nodup.subperm hsub).length_le

/-- The counters along the calls of a registration that has given up everything. -/
theorem Ledgered.settled {p : Nat} {acts : List RegAct} (h : Ledgered p acts 0)
    (hp : 2 * p + 1 < 2 ^ 32) (h₀ : Refs.Exact [] [] s₀) :
    (∃ tr x', Run RegRefs.step ⟨s₀, none, [], none⟩ tr x' ∧ tr.map (fun y => y.2.1) = acts) ∧
      ∀ tr x', Run RegRefs.step ⟨s₀, none, [], none⟩ tr x' → tr.map (fun y => y.2.1) = acts →
        Settled s₀ x'.refs := by
  have hstart : Ahead s₀ acts 0 ⟨s₀, none, [], none⟩ := by
    refine ⟨h.account, ?_, ?_, .inl ⟨rfl, by simp⟩⟩
    · rw [Multiset.zero_add, Multiset.coe_nodup]
      exact h.nodup.of_map
    · have := h.card_le
      rw [Multiset.zero_add, Multiset.coe_card]
      omega
  have hstep (a : RegAct) (acts : List RegAct) (x : RegRefs)
      (h : ∃ held, Ahead s₀ (a :: acts) held x) :
      (∃ l x', l.1 = a ∧ x.step l = some x') ∧
        ∀ l x', l.1 = a → x.step l = some x' → ∃ held, Ahead s₀ acts held x' := by
    obtain ⟨held, h⟩ := h
    obtain ⟨⟨env, x', hx⟩, hall⟩ := h.step h₀
    refine ⟨⟨(a, env), x', rfl, hx⟩, fun l x₁ hl hx₁ => ?_⟩
    subst hl
    exact hall l.2 x₁ hx₁
  obtain ⟨hex, hall⟩ := Run.along Prod.fst (fun acts x => ∃ held, Ahead s₀ acts held x) hstep
    ⟨0, hstart⟩
  refine ⟨hex, fun tr x' hr htr => ?_⟩
  obtain ⟨held, hend⟩ := hall tr x' hr htr
  obtain rfl : held = 0 := Option.some.inj hend.account
  rcases hend.counters with ⟨rfl, -⟩ | ⟨hf, -⟩
  · refine .of_exact h₀ rfl rfl rfl (List.count_eq_zero.mpr fun hmem => ?_)
    exact absurd (old_ctrls h₀ hmem) (Nat.lt_irrefl _)
  · exact hf.settled h₀

end Follows

end UGDS
