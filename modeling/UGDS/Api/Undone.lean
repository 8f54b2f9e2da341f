import UGDS.Api.RegRefs

/-!
# UGDS.Api.Undone

A registration that fails has undone what it did.

* `Ledgered.undone`: what the calls have taken and given back, kind by kind.
* `Ledgered.not_given_before`: what a call needs has not been given back, so a completion queue is
  deleted after its submission queue.
* `register_rolls_back`: `uGDSHandleRegister`.
-/

namespace UGDS

open Nvm Lib Drv

/-! ## Taken and given back -/

namespace RegAct

def allocated : RegAct → Option RegMem
  | .alloc m => some m
  | _ => none

def freed : RegAct → Option RegMem
  | .free m => some m
  | _ => none

def mapped : RegAct → Option RegMem
  | .map m true => some m
  | _ => none

def unmapped : RegAct → Option RegMem
  | .unmap m => some m
  | _ => none

/-- The queue that a command with this opcode has created. -/
def created (opcode : BitVec 8) : RegAct → Option Nat
  | .cmd c r => if c.opcode = opcode ∧ r = 0 then some c.qid else none
  | _ => none

/-- The queue that a command with this opcode was to delete. -/
def deleted (opcode : BitVec 8) : RegAct → Option Nat
  | .cmd c _ => if c.opcode = opcode then some c.qid else none
  | _ => none

end RegAct

/-- Everything was taken once and given back once. -/
structure Undone {α : Type} (taken given : List α) : Prop where
  once : taken.Nodup
  back : given.Perm taken

/-- The calls of a registration that has left nothing behind. -/
structure RolledBack (acts : List RegAct) : Prop where
  buffers : Undone (acts.filterMap RegAct.allocated) (acts.filterMap RegAct.freed)
  mappings : Undone (acts.filterMap RegAct.mapped) (acts.filterMap RegAct.unmapped)
  sqs : Undone (acts.filterMap (RegAct.created NVM_ADMIN_CREATE_SQ))
    (acts.filterMap (RegAct.deleted NVM_ADMIN_DELETE_SQ))
  cqs : Undone (acts.filterMap (RegAct.created NVM_ADMIN_CREATE_CQ))
    (acts.filterMap (RegAct.deleted NVM_ADMIN_DELETE_CQ))
  /-- Nothing is given back before it is taken. -/
  early : ∀ pre, pre <+: acts → ∀ r,
    (released (pre.map RegAct.call)).count r ≤ (acquired (pre.map RegAct.call)).count r
  /-- When a submission queue is deleted, the completion queue that it was created with has not
  been. -/
  order : ∀ pre c r post, acts = pre ++ .cmd c r :: post → c.opcode = NVM_ADMIN_DELETE_SQ →
    ∀ c', .cmd c' 0 ∈ acts → c'.opcode = NVM_ADMIN_CREATE_SQ → c'.qid = c.qid →
      c'.cqid ∉ pre.filterMap (RegAct.deleted NVM_ADMIN_DELETE_CQ)
  /-- Memory is not freed while it is mapped. -/
  pinned : ∀ pre m post, acts = pre ++ .unmap m :: post → m ∉ pre.filterMap RegAct.freed
  /-- `*fh` is not written. -/
  fh : .setFh ∉ acts
  /-- From every state of the counters that the library can be in, the calls can be made, and they
  lead to a state in which the controller is not referenced any more. -/
  counters : ∀ tr₀ s₀, Run Refs.step Refs.init tr₀ s₀ → (∀ y ∈ tr₀, Refs.Room y.1 y.2) →
    (∃ tr x, Run RegRefs.step ⟨s₀, none, [], none⟩ tr x ∧ tr.map (fun y => y.2.1) = acts) ∧
      ∀ tr x, Run RegRefs.step ⟨s₀, none, [], none⟩ tr x → tr.map (fun y => y.2.1) = acts →
        Settled s₀ x.refs

/-! ## The kinds of resources -/

namespace RegRes

def bufOf : RegRes → Option RegMem
  | .buf m => some m
  | _ => none

def dmaOf : RegRes → Option RegMem
  | .dma m => some m
  | _ => none

def sqOf : RegRes → Option Nat
  | .sq no => some no
  | _ => none

def cqOf : RegRes → Option Nat
  | .cq no => some no
  | _ => none

theorem mem_bufOf (r : RegRes) (m : RegMem) (h : m ∈ r.bufOf) : r = .buf m := by
  cases r <;> cases h
  rfl

theorem mem_dmaOf (r : RegRes) (m : RegMem) (h : m ∈ r.dmaOf) : r = .dma m := by
  cases r <;> cases h
  rfl

theorem mem_sqOf (r : RegRes) (n : Nat) (h : n ∈ r.sqOf) : r = .sq n := by
  cases r <;> cases h
  rfl

theorem mem_cqOf (r : RegRes) (n : Nat) (h : n ∈ r.cqOf) : r = .cq n := by
  cases r <;> cases h
  rfl

end RegRes

section Kinds

variable {p : Nat} {acts : List RegAct} {held : Multiset RegRes} {α : Type} {kind : RegRes → Option α}
  {taken given : RegAct → Option α}

theorem filterMap_acquired (h : ∀ a : RegAct, taken a = a.call.acquires.bind kind) :
    acts.filterMap taken = (acquired (acts.map RegAct.call)).filterMap kind := by
  rw [acquired, List.filterMap_filterMap, List.filterMap_map]
  exact List.filterMap_congr fun a _ => h a

theorem filterMap_released (h : ∀ a : RegAct, given a = a.call.releases.bind kind) :
    acts.filterMap given = (released (acts.map RegAct.call)).filterMap kind := by
  rw [released, List.filterMap_filterMap, List.filterMap_map]
  exact List.filterMap_congr fun a _ => h a

theorem Ledgered.undone (hl : Ledgered p acts 0)
    (ht : ∀ a : RegAct, taken a = a.call.acquires.bind kind)
    (hg : ∀ a : RegAct, given a = a.call.releases.bind kind)
    (hinj : ∀ r r' x, x ∈ kind r → x ∈ kind r' → r = r') :
    Undone (acts.filterMap taken) (acts.filterMap given) := by
  rw [filterMap_acquired ht, filterMap_released hg]
  exact ⟨hl.nodup.of_map.filterMap hinj, (released_perm hl.account).filterMap kind⟩

theorem taken_eq (a : RegAct) :
    a.allocated = a.call.acquires.bind RegRes.bufOf ∧ a.mapped = a.call.acquires.bind RegRes.dmaOf ∧
      a.created NVM_ADMIN_CREATE_SQ = a.call.acquires.bind RegRes.sqOf ∧
      a.created NVM_ADMIN_CREATE_CQ = a.call.acquires.bind RegRes.cqOf := by
  cases a with
  | map m ok => cases ok <;> exact ⟨rfl, rfl, rfl, rfl⟩
  | aqCreate ok => cases ok <;> exact ⟨rfl, rfl, rfl, rfl⟩
  | cmd c r =>
    simp only [RegAct.call, cmdCall_acquires, RegAct.allocated, RegAct.mapped, RegAct.created]
    by_cases hcq : c.opcode = NVM_ADMIN_CREATE_CQ ∧ r = 0
    · rw [if_pos hcq, hcq.1]
      exact ⟨rfl, rfl, rfl, if_pos ⟨rfl, hcq.2⟩⟩
    rw [if_neg hcq]
    split_ifs <;> exact ⟨rfl, rfl, rfl, rfl⟩
  | _ => exact ⟨rfl, rfl, rfl, rfl⟩

theorem given_eq (a : RegAct) :
    a.freed = a.call.releases.bind RegRes.bufOf ∧ a.unmapped = a.call.releases.bind RegRes.dmaOf ∧
      a.deleted NVM_ADMIN_DELETE_SQ = a.call.releases.bind RegRes.sqOf ∧
      a.deleted NVM_ADMIN_DELETE_CQ = a.call.releases.bind RegRes.cqOf := by
  cases a with
  | map m ok => cases ok <;> exact ⟨rfl, rfl, rfl, rfl⟩
  | aqCreate ok => cases ok <;> exact ⟨rfl, rfl, rfl, rfl⟩
  | cmd c r =>
    simp only [RegAct.call, cmdCall_releases, RegAct.freed, RegAct.unmapped, RegAct.deleted]
    by_cases hsq : c.opcode = NVM_ADMIN_DELETE_SQ
    · rw [if_pos hsq, hsq]
      exact ⟨rfl, rfl, rfl, rfl⟩
    rw [if_neg hsq]
    split_ifs <;> exact ⟨rfl, rfl, rfl, rfl⟩
  | _ => exact ⟨rfl, rfl, rfl, rfl⟩

/-- What a call needs was not given back before it. -/
theorem Ledgered.not_given_before {pre post : List RegAct} {a : RegAct}
    (hl : Ledgered p (pre ++ a :: post) 0) (hg : ∀ a : RegAct, given a = a.call.releases.bind kind)
    (hinj : ∀ r r' x, x ∈ kind r → x ∈ kind r' → r = r') {r : RegRes} (hr : r ∈ a.call.needs)
    {x : α} (hx : x ∈ kind r) : x ∉ pre.filterMap given := by
  have hacc := hl.account
  have hnd := hl.nodup.of_map
  rw [List.map_append, List.map_cons] at hacc hnd
  rw [filterMap_released hg]
  intro hmem
  obtain ⟨r', hr', hx'⟩ := List.mem_filterMap.mp hmem
  rw [← hinj r r' x hx hx'] at hr'
  exact not_released_of_needed hacc hnd hr hr'

theorem Ledgered.rolledBack (hl : Ledgered p acts 0) (hp : 2 * p + 1 < 2 ^ 32) : RolledBack acts := by
  have hinj {α : Type} {kind : RegRes → Option α} {mk : α → RegRes}
      (h : ∀ r x, x ∈ kind r → r = mk x) (r r' : RegRes) (x : α) (hx : x ∈ kind r)
      (hx' : x ∈ kind r') : r = r' := (h r x hx).trans (h r' x hx').symm
  have hbuf := hinj RegRes.mem_bufOf
  have hcq := hinj RegRes.mem_cqOf
  refine ⟨hl.undone (fun a => (taken_eq a).1) (fun a => (given_eq a).1) hbuf,
    hl.undone (fun a => (taken_eq a).2.1) (fun a => (given_eq a).2.1) (hinj RegRes.mem_dmaOf),
    hl.undone (fun a => (taken_eq a).2.2.1) (fun a => (given_eq a).2.2.1) (hinj RegRes.mem_sqOf),
    hl.undone (fun a => (taken_eq a).2.2.2) (fun a => (given_eq a).2.2.2) hcq, ?_, ?_, ?_, ?_, ?_⟩
  · intro pre hpre r
    exact released_le hl.account (hpre.map _) r
  · intro pre c r post hacts hc c' hmem hc' hqid
    have hmatch : c'.cqid = c'.qid := hl.matched _ hmem hc'
    rw [hacts] at hl
    refine hl.not_given_before (fun a => (given_eq a).2.2.2) hcq (r := .cq c.qid) ?_ ?_
    · simp only [RegAct.call, cmdCall, hc]
      exact List.mem_cons_of_mem _ (List.mem_singleton_self _)
    · rw [hmatch, hqid]
      rfl
  · intro pre m post hacts
    rw [hacts] at hl
    exact hl.not_given_before (fun a => (given_eq a).1) hbuf (r := .buf m)
      (List.mem_singleton_self _) rfl
  · exact fun hmem => hl.matched _ hmem
  · intro tr₀ s₀ hr hroom
    have hinv := Run.inv (Refs.Exact [] []) Refs.Room Refs.step_keeps hr Refs.init_exact hroom
    exact hl.settled hp hinv.1

end Kinds

/-! ## `uGDSHandleRegister` -/

/-- A registration that fails has given back what it took, each thing once, queues before those they
need; and the default controller and the registered handles are as before. -/
theorem register_rolls_back {dev : Device} {w w' : World} {r : RegCall} {e : OpError} {j : Nat}
    (h : w.handleRegister dev (2 ^ j) r = some (e, w')) (he : e ≠ .SUCCESS) :
    (∃ acts, w.registerActs dev (2 ^ j) r = some acts ∧ RolledBack acts) ∧
      w'.defaultCtrl = w.defaultCtrl ∧ w'.handles = w.handles := by
  obtain ⟨acts, hacts, p, hp, hl⟩ := World.handleRegister_ledgered h he
  refine ⟨⟨acts, hacts, hl.rolledBack ?_⟩, ?_⟩
  · simp only [UGDS_DEFAULT_NUM_QPS] at hp
    omega
  · cases World.handleRegister_effect h with
    | refused hl he => exact ⟨rfl, rfl⟩
    | notReset he => exact ⟨rfl, rfl⟩
    | notBuilt he => exact ⟨rfl, rfl⟩
    | registered => exact absurd rfl he

/-- A controller with two queue pairs. -/
def Nvm.Device.twoPairs : Device := fun _ _ =>
  [.fetch, .complete 0 ⟨fun i => if i.val = 0 then 0x00010001#32 else 0#32⟩]

/-- A registration for which there is no memory for the PRP list of the second queue pair. -/
def RegCall.noPrp : RegCall :=
  { RegCall.ok 0 with qps := fun i => if i = 1 then { QpEnv.ok i with prpBuf := none } else .ok i }

/-- Both submission queues are deleted, that of the second queue pair first. -/
theorem register_rolls_back_second :
    ∃ e w' acts,
      (World.init 1).driverOpen.2.handleRegister .twoPairs (2 ^ 12) .noPrp = some (e, w') ∧
      e ≠ .SUCCESS ∧
      (World.init 1).driverOpen.2.registerActs .twoPairs (2 ^ 12) .noPrp = some acts ∧
      RolledBack acts ∧ acts.filterMap (RegAct.deleted NVM_ADMIN_DELETE_SQ) = [2, 1] := by
  have hfail : ((World.init 1).driverOpen.2.handleRegister .twoPairs (2 ^ 12) .noPrp).any
      (fun x => x.1 ≠ .SUCCESS) = true := by decide +kernel
  have hdeleted : ((World.init 1).driverOpen.2.registerActs .twoPairs (2 ^ 12) .noPrp).any
      (fun acts => acts.filterMap (RegAct.deleted NVM_ADMIN_DELETE_SQ) = [2, 1]) = true := by
    decide +kernel
  obtain ⟨⟨e, w'⟩, h, he⟩ := (Option.any_eq_true _ _).mp hfail
  obtain ⟨⟨acts, hacts, hback⟩, -⟩ := register_rolls_back h (of_decide_eq_true he)
  rw [hacts] at hdeleted
  exact ⟨e, w', acts, h, of_decide_eq_true he, hacts, hback, of_decide_eq_true hdeleted⟩

end UGDS
