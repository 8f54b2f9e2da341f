import UGDS.Lib.Keys
import UGDS.Lib.Steps
import UGDS.Nvm.Types

/-!
# UGDS.Drv.Ctrls

The controllers of the kernel module: `add_pci_dev` and `remove_pci_dev` (`drv/pci.c`) with
`ctrl_get` and `ctrl_put` (`drv/ctrl.c`).

`curr_ctrls` is the number of controllers and also the number that the next one gets. A probe that
finds `max_num_ctrls` reached returns 0 without adding a controller, and `remove_pci_dev` counts
down for every device. The PCI core, which probes a device that is not bound and removes one that
is, appears as the list `bound`.

* `step_consistent`: when one step keeps the numbering consistent.
* `numbering_exact`: the numbering is consistent along a run exactly if every step is regular.
* `numbering_lost`: a device beyond the limit is removed.
-/

namespace UGDS
namespace Drv

open Lib Nvm

/-- `struct ctrl`. -/
structure Ctrl where
  pdev : Nat
  number : BitVec 32
  deriving DecidableEq, Repr

structure CtrlState where
  ctrlList : List Ctrl
  currCtrls : BitVec 32
  bound : List Nat
  deriving DecidableEq, Repr

/-- What a probe meets: the allocation in `ctrl_get`, `pci_request_region`, `pci_enable_device`,
`ctrl_chrdev_create` and the two DMA masks. -/
structure ProbeEnv where
  ctrl : Bool
  requestRegion : Option Errno
  enableDevice : Option Errno
  chrdevCreate : Option Errno
  mask64 : Bool
  mask32 : Bool

def ProbeEnv.Succeeds (env : ProbeEnv) : Prop :=
  env.ctrl = true ∧ env.requestRegion = none ∧ env.enableDevice = none ∧ env.chrdevCreate = none ∧
    (env.mask64 = true ∨ env.mask32 = true)

namespace CtrlState

variable (max : BitVec 32)

def init : CtrlState := ⟨[], 0, []⟩

/-- `ctrl_get`, once its allocation has succeeded. -/
def ctrlGet (s : CtrlState) (ctrl : Ctrl) : CtrlState := { s with ctrlList := s.ctrlList ++ [ctrl] }

/-- `ctrl_put`. -/
def ctrlPut (s : CtrlState) (ctrl : Ctrl) : CtrlState := { s with ctrlList := s.ctrlList.erase ctrl }

/-- `ctrl_find_by_pci_dev`. -/
def ctrlFindByPciDev (s : CtrlState) (dev : Nat) : Option Ctrl :=
  s.ctrlList.find? fun c => c.pdev = dev

/-- `add_pci_dev`: the error, if any. -/
def addPciDev (s : CtrlState) (dev : Nat) (env : ProbeEnv) : Option Errno × CtrlState :=
  if max.toInt ≤ s.currCtrls.toInt then (none, s)
  else if !env.ctrl then (some .ENOMEM, s)
  else
    let ctrl : Ctrl := ⟨dev, s.currCtrls⟩
    let s := s.ctrlGet ctrl
    match env.requestRegion, env.enableDevice, env.chrdevCreate with
    | some e, _, _ => (some e, s.ctrlPut ctrl)
    | none, some e, _ => (some e, s.ctrlPut ctrl)
    | none, none, some e => (some e, s.ctrlPut ctrl)
    | none, none, none =>
      if !env.mask64 && !env.mask32 then (some Errno.EIO, s.ctrlPut ctrl)
      else (none, { s with currCtrls := s.currCtrls + 1 })

/-- `remove_pci_dev`. -/
def removePciDev (s : CtrlState) (dev : Nat) : CtrlState :=
  let s := { s with currCtrls := s.currCtrls - 1 }
  match s.ctrlFindByPciDev dev with
  | some ctrl => s.ctrlPut ctrl
  | none => s

inductive Label where
  | probe (dev : Nat) (env : ProbeEnv)
  | remove (dev : Nat)

/-- A device whose probe returned 0 is bound until it is removed. -/
def step (s : CtrlState) : Label → Option CtrlState
  | .probe dev env =>
    if dev ∈ s.bound then none
    else
      match s.addPciDev max dev env with
      | (none, s) => some { s with bound := dev :: s.bound }
      | (some _, s) => some s
  | .remove dev =>
    if dev ∈ s.bound then some { s.removePciDev dev with bound := s.bound.erase dev } else none

/-! ## What a step does -/

/-- The list holds bound devices, each once. -/
structure Listed (s : CtrlState) : Prop where
  pdevs : (s.ctrlList.map Ctrl.pdev).Nodup
  bound : ∀ c ∈ s.ctrlList, c.pdev ∈ s.bound
  bound_nodup : s.bound.Nodup

theorem ctrlPut_ctrlGet {s : CtrlState} {ctrl : Ctrl} (h : ctrl ∉ s.ctrlList) :
    (s.ctrlGet ctrl).ctrlPut ctrl = s := by
  simp only [ctrlPut, ctrlGet]
  rw [List.erase_append_right _ h, List.erase_cons_head, List.append_nil]

variable {max} {s s' : CtrlState} {l : Label} {dev : Nat} {env : ProbeEnv}

/-- A probe adds a controller, or it leaves no trace. -/
theorem addPciDev_cases (h : ∀ c ∈ s.ctrlList, c.pdev ≠ dev) :
    (s.currCtrls.toInt < max.toInt ∧ env.Succeeds ∧ s.addPciDev max dev env =
        (none, ⟨s.ctrlList ++ [⟨dev, s.currCtrls⟩], s.currCtrls + 1, s.bound⟩)) ∨
      (¬ (s.currCtrls.toInt < max.toInt ∧ env.Succeeds) ∧
        (s.addPciDev max dev env).2 = s) := by
  have hnot : (⟨dev, s.currCtrls⟩ : Ctrl) ∉ s.ctrlList := by
    intro hmem
    exact h _ hmem rfl
  have hput := ctrlPut_ctrlGet hnot
  simp only [addPciDev]
  split
  · rename_i hge
    exact .inr ⟨by intro hlt; omega, rfl⟩
  rename_i hlt
  split
  · rename_i hc
    refine .inr ⟨?_, rfl⟩
    intro hs
    simp [hs.2.1] at hc
  rename_i hc
  split
  · rename_i he
    refine .inr ⟨?_, hput⟩
    intro hs
    rw [hs.2.2.1] at he
    cases he
  · rename_i he
    refine .inr ⟨?_, hput⟩
    intro hs
    rw [hs.2.2.2.1] at he
    cases he
  · rename_i he
    refine .inr ⟨?_, hput⟩
    intro hs
    rw [hs.2.2.2.2.1] at he
    cases he
  · rename_i hr he hcd
    split
    · rename_i hm
      refine .inr ⟨?_, hput⟩
      intro hs
      rcases hs.2.2.2.2.2 with h1 | h1 <;> simp [h1] at hm
    · rename_i hm
      refine .inl ⟨by omega, ⟨by simpa using hc, hr, he, hcd, ?_⟩, rfl⟩
      cases h64 : env.mask64 with
      | true => exact .inl rfl
      | false => exact .inr (by simpa [h64] using hm)

theorem find_pdev (h : dev ∈ s.ctrlList.map Ctrl.pdev) :
    ∃ c ∈ s.ctrlList, c.pdev = dev ∧ s.ctrlFindByPciDev dev = some c := by
  exact find_key h

theorem find_pdev_none (h : dev ∉ s.ctrlList.map Ctrl.pdev) : s.ctrlFindByPciDev dev = none := by
  refine List.find?_eq_none.mpr ?_
  intro c hc heq
  have hid : c.pdev = dev := by simpa using heq
  exact h (hid ▸ List.mem_map_of_mem hc)

/-- What a step does: a probe adds a controller or none, a removal finds one or none. -/
inductive Effect (max : BitVec 32) (s : CtrlState) : Label → CtrlState → Prop where
  | added (dev : Nat) (env : ProbeEnv) (hb : dev ∉ s.bound) (hlt : s.currCtrls.toInt < max.toInt)
      (henv : env.Succeeds) :
      Effect max s (.probe dev env)
        ⟨s.ctrlList ++ [⟨dev, s.currCtrls⟩], s.currCtrls + 1, dev :: s.bound⟩
  | kept (dev : Nat) (env : ProbeEnv) (bound : List Nat)
      (hnot : ¬ (s.currCtrls.toInt < max.toInt ∧ env.Succeeds))
      (hbound : bound = s.bound ∨ dev ∉ s.bound ∧ bound = dev :: s.bound) :
      Effect max s (.probe dev env) ⟨s.ctrlList, s.currCtrls, bound⟩
  | removed (c : Ctrl) (hc : c ∈ s.ctrlList) :
      Effect max s (.remove c.pdev) ⟨s.ctrlList.erase c, s.currCtrls - 1, s.bound.erase c.pdev⟩
  | missed (dev : Nat) (hno : dev ∉ s.ctrlList.map Ctrl.pdev) :
      Effect max s (.remove dev) ⟨s.ctrlList, s.currCtrls - 1, s.bound.erase dev⟩

theorem step_effect (h : s.Listed) (hs : s.step max l = some s') : Effect max s l s' := by
  cases l with
  | probe dev env =>
    simp only [step] at hs
    split at hs
    · cases hs
    rename_i hb
    have hne : ∀ c ∈ s.ctrlList, c.pdev ≠ dev := by
      rintro c hc rfl
      exact hb (h.bound c hc)
    rcases @addPciDev_cases max s dev env hne with ⟨hlt, henv, he⟩ | ⟨hnot, he⟩
    · rw [he] at hs
      cases hs
      exact .added dev env hb hlt henv
    · split at hs <;> rename_i heq <;> rw [heq] at he <;> subst he <;> cases hs
      · exact .kept dev env _ hnot (.inr ⟨hb, rfl⟩)
      · exact .kept dev env _ hnot (.inl rfl)
  | remove dev =>
    simp only [step] at hs
    split at hs
    · cases hs
      by_cases hin : dev ∈ s.ctrlList.map Ctrl.pdev
      · obtain ⟨c, hc, rfl, hf⟩ := find_pdev hin
        simp only [ctrlFindByPciDev] at hf
        simp only [removePciDev, ctrlFindByPciDev, hf, ctrlPut]
        exact .removed c hc
      · have hf := find_pdev_none hin
        simp only [ctrlFindByPciDev] at hf
        simp only [removePciDev, ctrlFindByPciDev, hf]
        exact .missed dev hin
    · cases hs

theorem step_listed (h : s.Listed) (hs : s.step max l = some s') : s'.Listed := by
  cases step_effect h hs with
  | added dev env hb hlt henv =>
    refine ⟨?_, ?_, List.nodup_cons.mpr ⟨hb, h.bound_nodup⟩⟩
    · have hnot : dev ∉ s.ctrlList.map Ctrl.pdev := by
        intro hmem
        obtain ⟨c, hc, rfl⟩ := List.mem_map.mp hmem
        exact hb (h.bound c hc)
      simp only [List.map_append, List.map_cons, List.map_nil]
      exact nodup_snoc h.pdevs hnot
    · intro c hc
      rcases List.mem_append.mp hc with hc | hc
      · exact List.mem_cons_of_mem _ (h.bound c hc)
      · rw [List.mem_singleton.mp hc]
        exact List.mem_cons_self
  | kept dev env bound hnot hbound =>
    rcases hbound with rfl | ⟨hb, rfl⟩
    · exact ⟨h.pdevs, h.bound, h.bound_nodup⟩
    · refine ⟨h.pdevs, ?_, List.nodup_cons.mpr ⟨hb, h.bound_nodup⟩⟩
      intro c hc
      exact List.mem_cons_of_mem _ (h.bound c hc)
  | removed c hc =>
    have hnd := h.pdevs
    rw [((List.perm_cons_erase hc).map Ctrl.pdev).nodup_iff, List.map_cons, List.nodup_cons] at hnd
    refine ⟨hnd.2, ?_, h.bound_nodup.erase _⟩
    intro x hx
    refine (List.mem_erase_of_ne ?_).mpr (h.bound x (List.erase_sublist.subset hx))
    intro heq
    exact hnd.1 (heq ▸ List.mem_map_of_mem hx)
  | missed dev hno =>
    refine ⟨h.pdevs, ?_, h.bound_nodup.erase _⟩
    intro x hx
    refine (List.mem_erase_of_ne ?_).mpr (h.bound x hx)
    rintro rfl
    exact hno (List.mem_map_of_mem hx)

/-! ## The numbering -/

/-- `curr_ctrls` counts the controllers, and their numbers are distinct and below the limit. -/
structure Consistent (max : BitVec 32) (s : CtrlState) : Prop where
  count : s.currCtrls.toInt = s.ctrlList.length
  numbers : (s.ctrlList.map Ctrl.number).Nodup
  below : ∀ c ∈ s.ctrlList, c.number.toInt < max.toInt

/-- A probe that adds a controller finds its number free, and a removed device has a controller. -/
def Regular (max : BitVec 32) (s : CtrlState) : Label → Prop
  | .probe _ env => s.currCtrls.toInt < max.toInt ∧ env.Succeeds →
      s.currCtrls ∉ s.ctrlList.map Ctrl.number
  | .remove dev => dev ∈ s.ctrlList.map Ctrl.pdev

theorem toInt_succ {x max : BitVec 32} (h : x.toInt < max.toInt) : (x + 1).toInt = x.toInt + 1 := by
  have hmax := BitVec.two_mul_toInt_lt (x := max)
  have hx := BitVec.le_two_mul_toInt (x := x)
  rw [BitVec.toInt_add, show (1 : BitVec 32).toInt = 1 from rfl]
  exact Int.bmod_eq_of_le_mul_two (by omega) (by omega)

theorem toInt_pred {x : BitVec 32} (h : 0 ≤ x.toInt) : (x - 1).toInt = x.toInt - 1 := by
  have hx := BitVec.two_mul_toInt_lt (x := x)
  rw [BitVec.toInt_sub, show (1 : BitVec 32).toInt = 1 from rfl]
  exact Int.bmod_eq_of_le_mul_two (by omega) (by omega)

/-- A step from a consistent state leads to one exactly if it is regular. -/
theorem step_consistent (hl : s.Listed) (h : s.Consistent max) (hs : s.step max l = some s') :
    s'.Consistent max ↔ Regular max s l := by
  have hcount := h.count
  cases step_effect hl hs with
  | added dev env hb hlt henv =>
    have hlen : ((s.ctrlList ++ [(⟨dev, s.currCtrls⟩ : Ctrl)]).length : Int) =
        s.ctrlList.length + 1 := by simp
    constructor
    · intro h' _ hmem
      have hnd := h'.numbers
      simp only [List.map_append, List.map_cons, List.map_nil] at hnd
      exact (List.nodup_append.mp hnd).2.2 _ hmem _ (List.mem_singleton_self _) rfl
    · intro hreg
      refine ⟨?_, ?_, ?_⟩
      · rw [toInt_succ hlt, hcount, hlen]
      · simp only [List.map_append, List.map_cons, List.map_nil]
        exact nodup_snoc h.numbers (hreg ⟨hlt, henv⟩)
      · intro c hc
        rcases List.mem_append.mp hc with hc | hc
        · exact h.below c hc
        · rw [List.mem_singleton.mp hc]
          exact hlt
  | kept dev env bound hnot hbound =>
    refine ⟨fun _ hadds => absurd hadds hnot, fun _ => ?_⟩
    exact ⟨h.count, h.numbers, h.below⟩
  | removed c hc =>
    refine ⟨fun _ => List.mem_map_of_mem hc, fun _ => ⟨?_, ?_, ?_⟩⟩
    · have hpos := List.length_pos_of_mem hc
      rw [toInt_pred (by omega), hcount, List.length_erase_of_mem hc]
      omega
    · exact h.numbers.sublist (List.erase_sublist.map _)
    · intro x hx
      exact h.below x (List.erase_sublist.subset hx)
  | missed dev hno =>
    refine ⟨fun h' => ?_, fun hreg => absurd hreg hno⟩
    -- one controller fewer is counted, and all of them are still there
    have hc' := h'.count
    rw [toInt_pred (by omega)] at hc'
    simp only [hcount] at hc'
    omega

theorem init_listed : init.Listed := ⟨by simp [init], by simp [init], by simp [init]⟩

theorem init_consistent : init.Consistent max := ⟨rfl, by simp [init], by simp [init]⟩

end CtrlState

open CtrlState

/-- For every limit and every sequence of probes and removals: the numbering is consistent in every
state exactly if every probe that adds a controller finds the number `curr_ctrls` free and every
device that is removed has a controller. -/
theorem numbering_exact (max : BitVec 32) {tr : List (CtrlState × Label)} {s : CtrlState}
    (hr : Run (CtrlState.step max) .init tr s) :
    ((∀ x ∈ tr, x.1.Consistent max) ∧ s.Consistent max) ↔ ∀ x ∈ tr, Regular max x.1 x.2 :=
  Run.forall_iff CtrlState.Listed (Consistent max) (Regular max)
    (fun _ _ _ h hs => step_listed h hs) (fun _ _ _ hl h hs => step_consistent hl h hs) hr
    init_listed init_consistent

/-- A probe in which everything succeeds. -/
def ProbeEnv.ok : ProbeEnv := ⟨true, none, none, none, true, true⟩

/-- Two controllers, the second removed first and probed again. -/
theorem numbering_exact_two :
    ∃ tr s, Run (CtrlState.step 64) .init tr s ∧
      ((∀ x ∈ tr, x.1.Consistent 64) ∧ s.Consistent 64) ∧ s.ctrlList = [⟨7, 0⟩, ⟨9, 1⟩] := by
  have hr : Run (CtrlState.step 64) .init _ _ :=
    .cons (l := .probe 7 .ok) rfl (.cons (l := .probe 8 .ok) rfl
      (.cons (l := .remove 8) rfl (.cons (l := .probe 9 .ok) rfl .refl)))
  refine ⟨_, _, hr, (numbering_exact 64 hr).mpr ?_, rfl⟩
  simp [Regular, CtrlState.init, removePciDev, ctrlGet, ctrlPut, ctrlFindByPciDev, ProbeEnv.ok]

/-- With room for one controller: a second device is probed, gets no controller, and is removed. -/
theorem numbering_lost :
    ¬ ∀ (max : BitVec 32) (tr : List (CtrlState × Label)) (s : CtrlState),
      Run (CtrlState.step max) .init tr s → s.Consistent max := by
  intro h
  have hr : Run (CtrlState.step 1) .init _ _ :=
    .cons (l := .probe 7 .ok) rfl (.cons (l := .probe 8 .ok) rfl (.cons (l := .remove 8) rfl .refl))
  have hcount := (h 1 _ _ hr).count
  revert hcount
  decide

end Drv
end UGDS
