import UGDS.Api.Driver
import UGDS.Lib.Keys

/-!
# UGDS.Api.Interleaved

What holds of `g_driver` however its callers interleave.

* `DriverState.Balanced`, `Point.recorded`: the handles that are mapped are those of `buf_registry`,
  up to what the owner of the lock is about to do.
* `driver_guarded`: the functions keep this with the lock, and do not touch it without.
* `driver_calls_exact`: the registry and the handles in every interleaving.
-/

namespace UGDS

open Lib

namespace DriverState

variable {s s' : DriverState}

/-- `ids` are the handles that are mapped, and no handle was unmapped twice. -/
def Balanced (s : DriverState) (ids : List Nat) : Prop :=
  (ids ++ s.unmapped).Perm (List.range s.made.length)

/-- A pointer has at most one entry, and an entry has the pointer that was mapped. -/
structure Keyed (s : DriverState) : Prop where
  keys : (s.bufRegistry.map Entry.key).Nodup
  made : ∀ e ∈ s.bufRegistry, s.made[e.id]? = some e.key

def ids (s : DriverState) : List Nat := s.bufRegistry.map Entry.id

/-- With the lock free. -/
structure Ok (s : DriverState) : Prop where
  keyed : s.Keyed
  balanced : s.Balanced s.ids

/-- What only the owner of the lock changes. -/
structure Same (s s' : DriverState) : Prop where
  initialized : s'.initialized = s.initialized
  defaultCtrl : s'.defaultCtrl = s.defaultCtrl
  bufRegistry : s'.bufRegistry = s.bufRegistry
  made : s'.made = s.made
  unmapped : s'.unmapped = s.unmapped

theorem Same.refl (s : DriverState) : s.Same s := ⟨rfl, rfl, rfl, rfl, rfl⟩

theorem find_none {base : Nat} (h : s.find base = none) : base ∉ s.bufRegistry.map Entry.key := by
  intro hmem
  obtain ⟨e, he, rfl⟩ := List.mem_map.mp hmem
  simpa using List.find?_eq_none.mp h e he

theorem find_some {base : Nat} {e : Entry} (h : s.find base = some e) :
    e ∈ s.bufRegistry ∧ e.key = base :=
  ⟨List.mem_of_find?_eq_some h, by simpa using List.find?_some h⟩

theorem Same.keyed (h : s.Same s') (hk : s.Keyed) : s'.Keyed :=
  ⟨by rw [h.bufRegistry]; exact hk.keys, by rw [h.bufRegistry, h.made]; exact hk.made⟩

theorem Same.balanced (h : s.Same s') {l : List Nat} (hb : s.Balanced l) : s'.Balanced l := by
  rw [Balanced, h.unmapped, h.made]
  exact hb

theorem Same.ok (h : s.Same s') (hok : s.Ok) : s'.Ok := by
  refine ⟨h.keyed hok.keyed, ?_⟩
  rw [ids, h.bufRegistry]
  exact h.balanced hok.balanced

theorem Balanced.unmap {e : Entry} {l : List Nat} (h : s.Balanced (e.id :: l)) :
    (s.unmap e).Balanced l := by
  refine List.Perm.trans ?_ h
  show (l ++ (s.unmapped ++ [e.id])).Perm (e.id :: (l ++ s.unmapped))
  rw [← List.append_assoc]
  exact List.perm_append_singleton _ _

theorem Balanced.map {base : Nat} {l : List Nat} (h : s.Balanced l) :
    ({ s with made := s.made ++ [base] } : DriverState).Balanced (l ++ [s.made.length]) := by
  show (l ++ [s.made.length] ++ s.unmapped).Perm (List.range (s.made ++ [base]).length)
  rw [List.length_append, List.length_singleton, List.range_succ, List.append_assoc]
  refine List.Perm.trans ?_ (h.append_right [s.made.length])
  rw [List.append_assoc]
  exact List.perm_append_comm.append_left l

/-- A handle that is in the registry and mapped is not unmapped. -/
theorem Balanced.not_unmapped {l : List Nat} {id : Nat} (h : s.Balanced l) (hid : id ∈ l) :
    id ∉ s.unmapped := by
  have hnd := h.nodup_iff.mpr List.nodup_range
  exact fun hun => (List.nodup_append.mp hnd).2.2 id hid id hun rfl

theorem Keyed.map (h : s.Keyed) (base : Nat) :
    ({ s with made := s.made ++ [base] } : DriverState).Keyed := by
  refine ⟨h.keys, fun e he => ?_⟩
  have hm := h.made e he
  rw [List.getElem?_append_left (List.getElem?_eq_some_iff.mp hm).1]
  exact hm

end DriverState

/-! ## At the points with the lock -/

namespace Point

variable {s s' : DriverState}

/-- The handles that are mapped while a call stands here. -/
def recorded (s : DriverState) : Point → List Nat
  | .closeUnmap rest => rest.map Entry.id
  | .regStore _ id => s.ids ++ [id]
  | .deregErase e => (s.bufRegistry.filter fun x => x.key ≠ e.key).map Entry.id
  | _ => s.ids

/-- What has been found out under the lock. -/
def Found (s : DriverState) : Point → Prop
  | .closeUnmap rest => ∀ e ∈ rest, e ∈ s.bufRegistry
  | .regMap base ctrl => s.find base = none ∧ s.defaultCtrl = some ctrl
  | .regStore base id => s.find base = none ∧ s.made[id]? = some base
  | .leave p => p.locked = false ∧
    ∀ base id, p = .ioUse base (some id) → ⟨base, id⟩ ∈ s.bufRegistry
  | _ => True

structure Holds (p : Point) (s : DriverState) : Prop where
  keyed : s.Keyed
  balanced : s.Balanced (p.recorded s)
  found : p.Found s

theorem Holds.same {p : Point} (h : p.Holds s) (hs : s.Same s') : p.Holds s' := by
  have hrec : p.recorded s' = p.recorded s := by
    cases p <;> simp only [recorded, DriverState.ids, hs.bufRegistry]
  refine ⟨hs.keyed h.keyed, hrec.symm ▸ hs.balanced h.balanced, ?_⟩
  have hf := h.found
  cases p <;> first
    | trivial
    | simpa only [Found, DriverState.find, hs.bufRegistry, hs.defaultCtrl, hs.made] using hf

/-- The end of a section in which the registry is in order. -/
theorem holds_leave {p : Point} (h : s.Ok) (hp : p.locked = false)
    (hio : ∀ base id, p = .ioUse base (some id) → ⟨base, id⟩ ∈ s.bufRegistry) :
    (Point.leave p).Holds s := ⟨h.keyed, h.balanced, hp, hio⟩

theorem holds_status {e : OpError} (h : s.Ok) : (Point.leave (.status e)).Holds s :=
  holds_leave h rfl (fun _ _ hp => by cases hp)

variable {p q : Point}

/-- Without the lock, a call changes nothing that the lock guards. -/
theorem Takes.same (h : Takes s p s' q) (hp : p.locked = false) : s.Same s' := by
  cases h with
  | handleInit | handleUndone | handleReturn | dropFree => exact ⟨rfl, rfl, rfl, rfl, rfl⟩
  | _ => first | exact .refl s | exact absurd hp.symm Bool.false_ne_true

/-- Taking the lock. -/
theorem Takes.take (h : Takes s p s' q) (hp : p.locked = false) (hq : q.locked = true) (hs : s.Ok) :
    q.Holds s' := by
  cases h with
  | openLock | closeLock | regLock | deregLock | handleLock | dropLock | ioLock =>
    exact ⟨hs.keyed, hs.balanced, trivial⟩
  | _ => first | exact absurd hp.symm Bool.false_ne_true | exact absurd hq Bool.false_ne_true

theorem regMap_holds {base ctrl : Nat} (h : (Point.regMap base ctrl).Holds s) :
    (Point.regStore base s.made.length).Holds { s with made := s.made ++ [base] } := by
  refine ⟨h.keyed.map base, DriverState.Balanced.map h.balanced, h.found.1, ?_⟩
  exact List.getElem?_concat_length

theorem regStore_ok {base id : Nat} (h : (Point.regStore base id).Holds s) :
    ({ s with bufRegistry := s.bufRegistry ++ [⟨base, id⟩] } : DriverState).Ok := by
  obtain ⟨hnew, hmade⟩ := h.found
  refine ⟨⟨?_, ?_⟩, ?_⟩
  · rw [List.map_append]
    exact nodup_snoc h.keyed.keys (DriverState.find_none hnew)
  · exact List.forall_mem_append.mpr ⟨h.keyed.made, List.forall_mem_singleton.mpr hmade⟩
  · rw [DriverState.ids, List.map_append]
    exact h.balanced

theorem deregFind_holds {base : Nat} {e : Entry} (hf : s.find base = some e)
    (h : (Point.deregFind base).Holds s) : (Point.deregErase e).Holds (s.unmap e) := by
  have hp := filter_ne_perm h.keyed.keys (DriverState.find_some hf).1
  refine ⟨⟨h.keyed.keys, h.keyed.made⟩, DriverState.Balanced.unmap ?_, trivial⟩
  exact ((hp.map Entry.id).symm.append_right s.unmapped).trans h.balanced

theorem deregErase_ok {e : Entry} (h : (Point.deregErase e).Holds s) :
    ({ s with bufRegistry := s.bufRegistry.filter fun x => x.key ≠ e.key } : DriverState).Ok := by
  refine ⟨⟨h.keyed.keys.sublist (List.filter_sublist.map _), fun x hx => ?_⟩, h.balanced⟩
  exact h.keyed.made x (List.mem_of_mem_filter hx)

/-- A step with the lock. -/
theorem Takes.inside (ht : Takes s p s' q) (hp : p.locked = true) (hq : q.locked = true)
    (h : p.Holds s) : q.Holds s' := by
  cases ht with
  | openSet => exact holds_status ⟨⟨h.keyed.keys, h.keyed.made⟩, h.balanced⟩
  | closeRefused | regFound _ | regFailed | deregMissing _ => exact holds_status ⟨h.keyed, h.balanced⟩
  | closeTest => exact ⟨h.keyed, h.balanced, fun e he => he⟩
  | @closeUnmap e rest =>
    refine ⟨⟨h.keyed.keys, h.keyed.made⟩, DriverState.Balanced.unmap h.balanced, ?_⟩
    exact fun x hx => h.found x (List.mem_cons_of_mem e hx)
  | closeClear => exact holds_status ⟨⟨List.nodup_nil, by simp⟩, h.balanced⟩
  | regFind hf hc => exact ⟨h.keyed, h.balanced, hf, hc⟩
  | regMap => exact regMap_holds h
  | regStore => exact holds_status (regStore_ok h)
  | deregFind hf => exact deregFind_holds hf h
  | deregErase => exact holds_status (deregErase_ok h)
  | handleDefault | dropDefault =>
    exact holds_leave ⟨⟨h.keyed.keys, h.keyed.made⟩, h.balanced⟩ rfl (fun _ _ hp => by cases hp)
  | ioFind =>
    refine holds_leave ⟨h.keyed, h.balanced⟩ rfl fun base id he => ?_
    obtain ⟨rfl, hid⟩ := Point.ioUse.inj he
    obtain ⟨e, hfind, rfl⟩ := Option.map_eq_some_iff.mp hid
    obtain ⟨hmem, rfl⟩ := DriverState.find_some hfind
    exact hmem
  | leave => exact absurd (h.found.1.symm.trans hq) Bool.false_ne_true
  | _ => exact absurd hp Bool.false_ne_true

/-- Giving the lock back. -/
theorem Takes.leave_ok (ht : Takes s p s' q) (hp : p.locked = true) (hq : q.locked = false)
    (h : p.Holds s) : s'.Ok := by
  cases ht with
  | leave => exact ⟨h.keyed, h.balanced⟩
  | _ => first | exact absurd hp Bool.false_ne_true | exact absurd hq.symm Bool.false_ne_true

end Point

theorem DriverCall.start_same {s s' : DriverState} {k : DriverCall} {p : Point}
    (h : k.start s = some (s', p)) : p.locked = false ∧ s.Same s' := by
  cases k with
  | handleDeregister ctrl =>
    simp only [start] at h
    split_ifs at h
    cases h
    exact ⟨rfl, rfl, rfl, rfl, rfl, rfl⟩
  | _ =>
    cases h
    exact ⟨rfl, .refl s⟩

theorem driver_guarded : Monitor.Guarded driverProgram DriverState.Ok Point.Holds where
  start s k s' p h := by
    obtain ⟨hp, hs⟩ := DriverCall.start_same h
    exact ⟨hp, hs.ok, fun q hq => hq.same hs⟩
  outside s p e s' q h hp _ := by
    have hs := (Point.takes_of_next h).same hp
    exact ⟨hs.ok, fun r hr => hr.same hs⟩
  take _ _ _ _ _ h hp hq hok := (Point.takes_of_next h).take hp hq hok
  inside _ _ _ _ _ h hp hq hh := (Point.takes_of_next h).inside hp hq hh
  leave _ _ _ _ _ h hp hq hh := (Point.takes_of_next h).leave_ok hp hq hh

/-! ## Controllers -/

namespace Point

/-- The controller that a call has made, or that it is about to free. -/
def ctrl : Point → Option Nat
  | .handleBuild ctrl | .handleLock ctrl | .handleDefault ctrl | .handleReturn ctrl | .dropLock ctrl
  | .dropDefault ctrl | .dropFree ctrl => some ctrl
  | .leave p => p.ctrl
  | _ => none

/-- The same while `default_ctrl` may point to it. -/
def exposed : Point → Option Nat
  | .handleReturn ctrl | .dropLock ctrl | .dropDefault ctrl => some ctrl
  | .leave p => p.exposed
  | _ => none

theorem ctrl_of_exposed {p : Point} {c : Nat} (h : p.exposed = some c) : p.ctrl = some c := by
  induction p with
  | handleReturn _ | dropLock _ | dropDefault _ => exact h
  | leave p ih => exact ih h
  | _ => cases h

variable {s s' : DriverState} {p q : Point}

theorem freed_perm (s : DriverState) (ctrl : Nat) :
    (s.handles ++ [] ++ (s.freed ++ [ctrl])).Perm (s.handles ++ [ctrl] ++ s.freed) := by
  rw [List.append_nil, List.append_assoc]
  exact List.perm_append_comm.append_left s.handles

/-- A step hands a controller on: to the next point, to the caller, or to `nvm_ctrl_free`. -/
theorem Takes.ctrls (h : Takes s p s' q) :
    ∃ new, List.range s'.nextCtrl = List.range s.nextCtrl ++ new ∧
      (s'.handles ++ q.ctrl.toList ++ s'.freed).Perm (s.handles ++ p.ctrl.toList ++ s.freed ++ new) := by
  cases h with
  | handleInit =>
    refine ⟨[s.nextCtrl], List.range_succ, ?_⟩
    show (s.handles ++ [s.nextCtrl] ++ s.freed).Perm (s.handles ++ [] ++ s.freed ++ [s.nextCtrl])
    rw [List.append_nil, List.append_assoc, List.append_assoc]
    exact List.perm_append_comm.append_left s.handles
  | @handleUndone ctrl | @dropFree ctrl =>
    refine ⟨[], (List.append_nil _).symm, ?_⟩
    rw [List.append_nil]
    exact freed_perm s ctrl
  | @handleReturn ctrl =>
    refine ⟨[], (List.append_nil _).symm, ?_⟩
    show (s.handles ++ [ctrl] ++ [] ++ s.freed).Perm (s.handles ++ [ctrl] ++ s.freed ++ [])
    rw [List.append_nil, List.append_nil]
  | _ => exact ⟨[], (List.append_nil _).symm, by rw [List.append_nil]; rfl⟩

/-- `default_ctrl` after a step: the controller that the call has just exposed, or the one before,
unless the call has hidden it. -/
theorem Takes.default (h : Takes s p s' q) {c : Nat} (hc : s'.defaultCtrl = some c) :
    (∀ x ∈ s.handles, x ∈ s'.handles) ∧ (q.exposed = some c ∨
      s.defaultCtrl = some c ∧ (p.exposed = some c → q.exposed = some c ∨ c ∈ s'.handles)) := by
  cases h with
  | handleDefault =>
    refine ⟨fun _ hx => hx, ?_⟩
    simp only at hc
    split_ifs at hc
    · exact .inl hc
    · exact .inr ⟨hc, (fun h => by cases h)⟩
  | dropDefault =>
    refine ⟨fun _ hx => hx, ?_⟩
    simp only at hc
    split_ifs at hc with hd
    exact .inr ⟨hc, fun h => absurd (hc.trans h.symm) hd⟩
  | handleReturn =>
    refine ⟨fun x hx => List.mem_append_left _ hx, .inr ⟨hc, fun h => .inr ?_⟩⟩
    cases h
    exact List.mem_append_right _ (List.mem_singleton_self _)
  | closeClear => cases hc
  | _ => exact ⟨fun _ hx => hx, .inr ⟨hc, fun h => .inl h⟩⟩

end Point

namespace Driver

variable {m m' : Driver} {tr : List (Driver × Driver.Move)}

/-- The controllers: those of registered handles, those that calls work on, and those freed. -/
structure Owned (m : Driver) : Prop where
  ctrls : (m.shared.handles ++ m.threads.filterMap Point.ctrl ++ m.shared.freed).Perm
    (List.range m.shared.nextCtrl)
  default : ∀ c, m.shared.defaultCtrl = some c →
    c ∈ m.shared.handles ∨ ∃ p ∈ m.threads, p.exposed = some c

/-- No controller is in two places. -/
theorem Owned.not_freed (h : Owned m) {c : Nat} (hc : m.shared.defaultCtrl = some c) :
    c ∉ m.shared.freed := by
  have hnd := h.ctrls.nodup_iff.mpr List.nodup_range
  have hmem : c ∈ m.shared.handles ++ m.threads.filterMap Point.ctrl := by
    rcases h.default c hc with hh | ⟨p, hp, he⟩
    · exact List.mem_append_left _ hh
    · exact List.mem_append_right _ (List.mem_filterMap.mpr ⟨p, hp, Point.ctrl_of_exposed he⟩)
  exact fun hf => (List.nodup_append.mp hnd).2.2 c hmem c hf rfl

theorem Owned.step_next (h : Owned m) {j : Nat} {p q : Point} {s : DriverState}
    (hp : m.threads[j]? = some p) (ht : Point.Takes m.shared p s q) (lock : Option Nat) :
    Owned ⟨s, lock, m.threads.set j q⟩ := by
  obtain ⟨rest, hold, hnew⟩ := Monitor.threads_perm hp q
  refine ⟨?_, fun c hc => ?_⟩
  · obtain ⟨new, hrange, hctrls⟩ := ht.ctrls
    rw [hrange]
    refine List.perm_iff_count.mpr fun c => ?_
    have h₁ := h.ctrls.count_eq c
    have h₂ := hctrls.count_eq c
    have h₃ := (hold.filterMap Point.ctrl).count_eq c
    have h₄ := (hnew.filterMap Point.ctrl).count_eq c
    have hcons (x : Point) : ((x :: rest).filterMap Point.ctrl).count c =
        x.ctrl.toList.count c + (rest.filterMap Point.ctrl).count c := by
      cases hx : x.ctrl <;> simp [hx, List.count_cons, Nat.add_comm]
    rw [hcons] at h₃ h₄
    simp only [List.count_append] at h₁ h₂ ⊢
    omega
  · obtain ⟨hhandles, hq | ⟨hd, hpq⟩⟩ := ht.default hc
    · exact .inr ⟨q, hnew.mem_iff.mpr List.mem_cons_self, hq⟩
    · rcases h.default c hd with hh | ⟨r, hr, he⟩
      · exact .inl (hhandles c hh)
      · rcases List.mem_cons.mp (hold.mem_iff.mp hr) with rfl | hr
        · rcases hpq he with hq | hh
          · exact .inr ⟨q, hnew.mem_iff.mpr List.mem_cons_self, hq⟩
          · exact .inl hh
        · exact .inr ⟨r, hnew.mem_iff.mpr (List.mem_cons_of_mem q hr), he⟩

theorem Owned.step_call (h : Owned m) {k : DriverCall} {s : DriverState} {p : Point}
    (hs : k.start m.shared = some (s, p)) : Owned ⟨s, m.lock, m.threads ++ [p]⟩ := by
  have hkeep (hp : p.ctrl = none) (he : s = m.shared) : Owned ⟨s, m.lock, m.threads ++ [p]⟩ := by
    subst he
    refine ⟨?_, fun c hc => ?_⟩
    · rw [List.filterMap_append, List.filterMap_cons_none hp, List.filterMap_nil, List.append_nil]
      exact h.ctrls
    · rcases h.default c hc with hh | ⟨r, hr, he⟩
      · exact .inl hh
      · exact .inr ⟨r, List.mem_append_left _ hr, he⟩
  cases k with
  | handleDeregister ctrl =>
    simp only [DriverCall.start] at hs
    split_ifs at hs with hmem
    cases hs
    refine ⟨?_, fun c hc => ?_⟩
    · -- the caller gives its handle to the call
      refine List.Perm.trans ?_ h.ctrls
      refine List.perm_iff_count.mpr fun c => ?_
      have h₁ := (List.perm_cons_erase hmem).count_eq c
      simp only [List.filterMap_append, List.count_append, List.count_cons] at h₁ ⊢
      rw [show [Point.dropLock ctrl].filterMap Point.ctrl = [ctrl] from rfl, List.count_singleton]
      omega
    · rcases h.default c hc with hh | ⟨r, hr, he⟩
      · by_cases hcc : c = ctrl
        · exact .inr ⟨.dropLock ctrl, List.mem_append_right _ (List.mem_singleton_self _),
            congrArg some hcc.symm⟩
        · exact .inl ((List.mem_erase_of_ne hcc).mpr hh)
      · exact .inr ⟨r, List.mem_append_left _ hr, he⟩
  | _ =>
    cases hs
    exact hkeep rfl rfl

theorem Owned.step {l : Driver.Move} (h : Owned m) (hs : m.step l = some m') : Owned m' := by
  cases l with
  | call k =>
    obtain ⟨s, p, hstart, rfl⟩ := Monitor.step_call hs
    exact h.step_call hstart
  | step j ok =>
    obtain ⟨p, s, q, lock, hp, hn, -, rfl⟩ := Monitor.step_next hs
    exact h.step_next hp (Point.takes_of_next hn) lock

/-- The two invariants. -/
structure Inv (m : Driver) : Prop where
  guards : Monitor.Guards driverProgram DriverState.Ok Point.Holds m
  owned : Owned m

theorem Inv.step {l : Driver.Move} (h : Inv m) (hs : m.step l = some m') : Inv m' :=
  ⟨driver_guarded.step h.guards hs, h.owned.step hs⟩

theorem Inv.init : Inv Driver.init :=
  ⟨.init ⟨⟨List.nodup_nil, by simp [DriverState.init]⟩, List.Perm.refl _⟩,
    ⟨List.Perm.refl _, by simp [Driver.init, Monitor.init, DriverState.init]⟩⟩

theorem run_inv (hr : Run Driver.step .init tr m) : Inv m ∧ ∀ x ∈ tr, Inv x.1 :=
  Run.inv Inv (fun _ _ => True) (fun _ _ _ h _ hs => h.step hs) hr .init (fun _ _ => trivial)

/-- With the lock free or not, the registry is in order up to what its owner is about to do. -/
theorem Inv.keyed (h : Inv m) : m.shared.Keyed ∧ ∃ ids, m.shared.Balanced ids := by
  cases hl : m.lock with
  | none => exact ⟨(h.guards.free hl).keyed, _, (h.guards.free hl).balanced⟩
  | some j =>
    have hp := List.getElem?_eq_getElem (h.guards.exclusive.held j hl)
    have hh := h.guards.busy j _ hp ((h.guards.exclusive.holds j _ hp).mpr hl)
    exact ⟨hh.keyed, _, hh.balanced⟩

end Driver

/-- However calls of the library interleave: at most one is in a section under the lock; whenever the
lock is free, the handles that `uGDSBufRegister` has made and that are not unmapped are those of
`buf_registry`; at any time a pointer has one entry and no handle was unmapped twice; no controller is
freed twice, `default_ctrl` points to one that is not freed, and buffers are mapped through no other. -/
theorem driver_calls_exact {tr : List (Driver × Driver.Move)} {m : Driver}
    (hr : Run Driver.step .init tr m) :
    (∀ (j k : Nat) p q, m.threads[j]? = some p → m.threads[k]? = some q → p.locked = true →
        q.locked = true → j = k) ∧
      (m.lock = none → ∀ id, id ∈ m.shared.ids ↔ id < m.shared.made.length ∧ id ∉ m.shared.unmapped) ∧
      (m.shared.bufRegistry.map Entry.key).Nodup ∧ m.shared.unmapped.Nodup ∧ m.shared.freed.Nodup ∧
      (∀ c, m.shared.defaultCtrl = some c → c ∉ m.shared.freed) ∧
      ∀ x ∈ tr, ∀ j ok base c, x.2 = .step j ok → x.1.threads[j]? = some (.regMap base c) →
        c ∉ x.1.shared.freed := by
  obtain ⟨h, htr⟩ := Driver.run_inv hr
  obtain ⟨hkeyed, ids, hbal⟩ := h.keyed
  have hfreed := h.owned.ctrls.nodup_iff.mpr List.nodup_range
  refine ⟨fun j k p q hp hq hlp hlq => h.guards.exclusive.unique hp hq hlp hlq, fun hl id => ?_,
    hkeyed.keys, ?_, (List.nodup_append.mp hfreed).2.1, fun c hc => h.owned.not_freed hc, ?_⟩
  · have hb := (h.guards.free hl).balanced
    rw [← List.mem_range, ← hb.mem_iff, List.mem_append]
    exact ⟨fun hid => ⟨.inl hid, hb.not_unmapped hid⟩, fun hid => hid.1.resolve_right hid.2⟩
  · exact (List.nodup_append.mp (hbal.nodup_iff.mpr List.nodup_range)).2.1
  · intro x hx j ok base c _ hp
    have hh := (htr x hx).guards.busy j _ hp rfl
    exact (htr x hx).owned.not_freed hh.found.2

/-- Two registrations of one pointer and the closing of the driver, interleaved. -/
def racingCalls : List Driver.Move :=
  [.call .driverOpen, .step 0 true, .step 0 true, .step 0 true,
    .call (.handleRegister false true), .step 1 true, .step 1 true, .step 1 true, .step 1 true,
    .step 1 true, .step 1 true, .step 1 true,
    .call (.bufRegister 8 1), .call (.bufRegister 8 1), .call .driverClose,
    .step 2 true, .step 3 true, .step 3 true, .step 3 true, .step 3 true, .step 3 true, .step 3 true,
    .step 2 true, .step 2 true, .step 2 true,
    .step 4 true, .step 4 true, .step 4 true, .step 4 true, .step 4 true]

/-- The first one to call finds the pointer registered, and the driver unmaps one handle. -/
theorem driver_calls_exact_race :
    ∃ tr m, Run Driver.step .init tr m ∧ m.lock = none ∧ m.shared.made = [8] ∧
      m.shared.unmapped = [0] ∧ m.threads[2]? = some (.status .MEMORY_ALREADY_REGISTERED) ∧
      ∀ id, id ∈ m.shared.ids ↔ id < m.shared.made.length ∧ id ∉ m.shared.unmapped := by
  obtain ⟨tr, m, hr, -, hobs⟩ := follow_run Driver.step (fun _ _ => true) .init racingCalls
    (fun m => m.lock = none && m.shared.made = [8] && m.shared.unmapped = [0] &&
      m.threads[2]? = some (.status .MEMORY_ALREADY_REGISTERED)) (by decide +kernel)
  simp only [Bool.and_eq_true, decide_eq_true_eq] at hobs
  obtain ⟨⟨⟨hl, hmade⟩, hun⟩, hst⟩ := hobs
  exact ⟨tr, m, hr, hl, hmade, hun, hst, (driver_calls_exact hr).2.1 hl⟩

end UGDS
