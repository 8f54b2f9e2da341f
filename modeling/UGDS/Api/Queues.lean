import UGDS.Api.Effect

/-!
# UGDS.Api.Queues

Whose queues a controller has: over runs of the whole library, the controller's table holds the
memory of every registered handle's queue pairs, as long as no device is registered while a handle
on it is registered. A second registration resets the controller under the first handle.

* `World.QueuesInv.effect`: the invariant that one step keeps.
* `queues_own`: in every run that meets the condition, each handle's queues are the controller's.
* `queues_stolen`: after two registrations of one device the first handle's doorbells ring for the
  second handle's rings.
-/

namespace UGDS

open Nvm Lib Drv

/-- The controller has the queues of `q` under their numbers, at the memory that the handle has for
them. -/
def OwnQueues (tb : QTable) (q : IOQueuePair) : Prop :=
  (∃ d, q.sqDma = some d ∧ q.pair.sq.q.ioaddr = d.base ∧ tb.sqs q.pair.sq.q.no = some d.base) ∧
    ∃ d, q.cqDma = some d ∧ q.pair.cq.q.ioaddr = d.base ∧ tb.cqs q.pair.cq.q.no = some d.base

theorem QpBound.own {tb : QTable} {i : Nat} {q : IOQueuePair} (h : QpBound tb i q) :
    OwnQueues tb q := by
  refine ⟨?_, ?_⟩
  · rw [h.sq_no]
    exact h.sq
  · rw [h.cq_no]
    exact h.cq

/-- Using a queue pair keeps the numbers and the addresses of its queues. -/
theorem OwnQueues.grows {tb : QTable} {q q' : IOQueuePair} (h : OwnQueues tb q)
    (hs : q'.sqDma = q.sqDma) (hc : q'.cqDma = q.cqDma) (hg : Grows q.pair q'.pair) :
    OwnQueues tb q' := by
  have hids := hg.ids
  simp only [Qp.ids, NvmQueue.ident, Prod.mk.injEq] at hids
  obtain ⟨⟨h1, h2⟩, h3, h4⟩ := hids
  simp only [OwnQueues, hs, hc, h1, h2, h3, h4]
  exact h

namespace World

/-- The device of a handle. -/
def device (w : World) (hs : HandleState) : Nat := w.ctrlDev hs.ctrlId

/-- The controller of a handle has the handle's queues. -/
def OwnsQueues (w : World) (hs : HandleState) : Prop :=
  ∀ q ∈ hs.qps, OwnQueues (w.ctlr (w.device hs)).table q

/-- A device is registered only while no handle on it is registered. -/
def FreshDevice (w : World) : Label → Prop
  | .handleRegister r => ∀ hs ∈ w.handles, w.device hs ≠ r.device
  | _ => True

instance (w : World) (l : Label) : Decidable (w.FreshDevice l) :=
  match l with
  | .handleRegister _ => inferInstanceAs (Decidable (∀ _ ∈ _, _))
  | .driverOpen | .driverClose _ | .handleDeregister .. | .bufRegister .. | .bufDeregister ..
  | .io .. | .device .. => isTrue trivial

/-- Every registered handle owns its controller, and the controller has its queues. -/
structure QueuesInv (w : World) : Prop extends w.Wf where
  owner : ∀ hs ∈ w.handles, (w.ctlr (w.device hs)).owner = some hs.ctrlId
  queues : ∀ hs ∈ w.handles, w.OwnsQueues hs

variable {w w' : World} {l : Label} {ret : Ret}

/-- Two handles on one device are one. -/
theorem QueuesInv.device_inj (h : w.QueuesInv) {x y : HandleState} (hx : x ∈ w.handles)
    (hy : y ∈ w.handles) (he : w.device x = w.device y) : x.ctrlId = y.ctrlId := by
  have h1 := h.owner x hx
  rw [he, h.owner y hy] at h1
  exact (Option.some.inj h1).symm

/-- The rule for steps under which every handle that stays keeps its controller. -/
theorem QueuesInv.of_kept (h : w.QueuesInv) (hwf : w'.Wf)
    (hs : ∀ x ∈ w'.handles, x ∈ w.handles ∧ w'.ctrlDev x.ctrlId = w.ctrlDev x.ctrlId ∧
      w'.ctlr (w.device x) = w.ctlr (w.device x)) : w'.QueuesInv := by
  refine ⟨hwf, fun x hx => ?_, fun x hx => ?_⟩
  · obtain ⟨hx, hd, hc⟩ := hs x hx
    rw [device, hd, ← device, hc]
    exact h.owner x hx
  · obtain ⟨hx, hd, hc⟩ := hs x hx
    rw [OwnsQueues, device, hd, ← device, hc]
    exact h.queues x hx

theorem QueuesInv.setHandle (h : w.QueuesInv) {id : Nat} {hs hs' : HandleState}
    (hf : w.find id = some hs) (hm : hs.Moves hs') : (w.setHandle hs').QueuesInv := by
  obtain ⟨hmem, -⟩ := find_mem hf
  have hdev : w.device hs' = w.device hs := by rw [device, hm.ctrlId, device]
  refine ⟨h.toWf.setHandle hf hm, fun x hx => ?_, fun x hx => ?_⟩
  · rcases mem_setHandle hx with hx | rfl
    · exact h.owner x hx
    · show (w.ctlr (w.device x)).owner = some x.ctrlId
      rw [hdev, hm.ctrlId]
      exact h.owner hs hmem
  · rcases mem_setHandle hx with hx | rfl
    · exact h.queues x hx
    · intro q' hq'
      show OwnQueues (w.ctlr (w.device x)).table q'
      obtain ⟨i, hi⟩ := List.mem_iff_getElem?.mp hq'
      obtain ⟨q, hq, hsd, hcd, hg⟩ := hm.qps i q' hi
      have hqm := List.mem_of_getElem? hq
      obtain ⟨n, hn⟩ := (h.handles hs hmem).pairs q hqm
      rw [hdev]
      exact (h.queues hs hmem q hqm).grows hsd hcd (hg n hn).2

/-- What a registration leaves of the other handles, whether or not it succeeds. -/
theorem QueuesInv.others (h : w.QueuesInv) {r : RegCall} {c : Ctlr}
    (hfresh : w.FreshDevice (.handleRegister r)) {x : HandleState} (hx : x ∈ w.handles) :
    Function.update w.ctrlDev w.nextId r.device x.ctrlId = w.ctrlDev x.ctrlId ∧
      Function.update w.ctlr r.device c (w.device x) = w.ctlr (w.device x) :=
  ⟨Function.update_of_ne (Nat.ne_of_lt (h.handles x hx).id_lt) _ _,
    Function.update_of_ne (hfresh x hx) _ _⟩

theorem QueuesInv.effect (h : w.QueuesInv) (hfresh : w.FreshDevice l) (he : Effect w l ret w') :
    w'.QueuesInv := by
  have hwf := h.toWf.effect he
  cases he with
  | opened => exact h.of_kept hwf fun x hx => ⟨hx, rfl, rfl⟩
  | closed hi => exact h.of_kept hwf fun x hx => ⟨hx, rfl, rfl⟩
  | refused hl he => exact h.of_kept hwf fun x hx => ⟨hx, rfl, rfl⟩
  | notReset he => exact h.of_kept hwf fun x hx => ⟨hx, (h.others (c := w.ctlr 0) hfresh hx).1, rfl⟩
  | notBuilt he => exact h.of_kept hwf fun x hx => ⟨hx, h.others hfresh hx⟩
  | @registered r k t log c hs hi hid hbuilt haq ho hq =>
    have hdev : Function.update w.ctrlDev w.nextId r.device hs.ctrlId = r.device := by
      rw [hid, Function.update_self]
    refine ⟨hwf, fun x hx => ?_, fun x hx => ?_⟩
    · rcases List.mem_append.mp hx with hx | hx
      · obtain ⟨h1, h2⟩ := h.others (c := c) hfresh hx
        simp only [device, h1]
        simp only [device] at h2
        rw [h2]
        exact h.owner x hx
      · rw [List.mem_singleton.mp hx]
        simp only [device, Function.update_self, ho, hid]
    · rcases List.mem_append.mp hx with hx | hx
      · obtain ⟨h1, h2⟩ := h.others (c := c) hfresh hx
        simp only [OwnsQueues, device, h1]
        simp only [device] at h2
        rw [h2]
        exact h.queues x hx
      · rw [List.mem_singleton.mp hx]
        intro q hq'
        obtain ⟨i, hi⟩ := List.mem_iff_getElem?.mp hq'
        simp only [device, hdev, Function.update_self]
        exact (hq i q hi).own
  | @deregistered current id hs k t log tb pair hf =>
    obtain ⟨hmem, hid⟩ := find_mem hf
    refine h.of_kept hwf fun x hx => ?_
    have hx' : x ∈ w.handles ∧ x.ctrlId ≠ id := by simpa using hx
    refine ⟨hx'.1, rfl, Function.update_of_ne (fun he => hx'.2 ?_) _ _⟩
    exact (h.device_inj hx'.1 hmem (by rw [he, device, hid])).trans hid
  | bufRegistered hi hnew hd hf hc => exact h.of_kept hwf fun x hx => ⟨hx, rfl, rfl⟩
  | bufDeregistered hi hb => exact h.of_kept hwf fun x hx => ⟨hx, rfl, rfl⟩
  | @transferred env current id a n hs hs' k t log hf hm =>
    have h₁ : ({ w with k := k, t := t, log := log } : World).QueuesInv :=
      h.of_kept ⟨h.handles, h.freed_lt, h.freed_gone⟩ fun x hx => ⟨hx, rfl, rfl⟩
    exact h₁.setHandle hf hm
  | @acted acts which id hs hs' tb hf hm htb =>
    -- nothing is outstanding on the admin pair, so the table has not changed
    rw [htb (h.handles hs (find_mem hf).1).aq, Function.update_eq_self]
    exact h.setHandle hf hm
  | @actedFreed acts which n f pair tb hf hs =>
    refine h.of_kept hwf fun x hx => ⟨hx, rfl, Function.update_of_ne (fun he => ?_) _ _⟩
    have ho := h.owner x hx
    simp only [serves, decide_eq_true_eq] at hs
    rw [he, hs] at ho
    exact h.freed_gone f (List.mem_of_getElem? hf) x hx (Option.some.inj ho)

theorem queuesInv_init (nCtrls : Nat) : (init nCtrls).QueuesInv :=
  ⟨wf_init nCtrls, by simp [init], by simp [init]⟩

end World

/-- In every run in which a device is registered only while no handle on it is registered: the
controller of every registered handle has that handle's queues, each under its number and at the
address of its memory. -/
theorem queues_own {dev : Device} {j nCtrls : Nat} {tr : List (World × Label)} {w : World}
    (hrun : Run (World.step dev (2 ^ j)) (.init nCtrls) tr w)
    (hfresh : ∀ x ∈ tr, x.1.FreshDevice x.2) : ∀ hs ∈ w.handles, w.OwnsQueues hs := by
  have hinv : w.QueuesInv := World.run_inv World.QueuesInv World.FreshDevice
    (fun _ _ _ _ h hg he => h.effect hg he) hrun (World.queuesInv_init nCtrls) hfresh
  exact hinv.queues

/-- Another registration of device `d`, with memory of its own. -/
def RegCall.again (d : Nat) : RegCall :=
  { RegCall.ok d with aqBuf := some 0x20000, qps := fun i => .ok (i + 1) }

/-- Two devices, and the first one registered again after its handle is gone. -/
theorem queues_own_again :
    ∃ tr w, Run (World.step .prompt (2 ^ 12)) (.init 1) tr w ∧ w.handles.length = 2 ∧
      (∀ x ∈ tr, x.1.FreshDevice x.2) ∧ ∀ hs ∈ w.handles, w.OwnsQueues hs := by
  obtain ⟨tr, w, hr, hg, hw⟩ := follow_run (World.step .prompt (2 ^ 12))
    (fun w l => w.FreshDevice l) (.init 1)
    [.driverOpen, .handleRegister (.ok 0), .handleRegister (.ok 1), .handleDeregister ⟨0, 0⟩ 0,
      .handleRegister (.again 0)]
    (fun w => w.handles.length = 2) (by decide +kernel)
  have hfresh (x : World × Label) (hx : x ∈ tr) : x.1.FreshDevice x.2 := of_decide_eq_true (hg x hx)
  exact ⟨tr, w, hr, of_decide_eq_true hw, hfresh, queues_own hr hfresh⟩

/-- Two registrations of one device: the controller has the second handle's submission queue under
number 1, which is also the first handle's. -/
theorem queues_stolen :
    ¬ ∀ (dev : Device) (j nCtrls : Nat) (tr : List (World × Label)) (w : World),
      Run (World.step dev (2 ^ j)) (.init nCtrls) tr w → ∀ hs ∈ w.handles, w.OwnsQueues hs := by
  intro h
  obtain ⟨tr, w, hr, -, hw⟩ := follow_run (World.step .prompt (2 ^ 12)) (fun _ _ => true) (.init 1)
    [.driverOpen, .handleRegister (.ok 0), .handleRegister (.again 0)]
    (fun w => w.handles.any fun hs => hs.qps.any fun q =>
      (w.ctlr (w.device hs)).table.sqs q.pair.sq.q.no ≠ q.sqDma.map NvmDma.base) (by decide +kernel)
  obtain ⟨hs, hmem, hw⟩ := List.any_eq_true.mp hw
  obtain ⟨q, hq, hw⟩ := List.any_eq_true.mp hw
  obtain ⟨⟨d, hd, -, hb⟩, -⟩ := h _ _ _ tr w hr hs hmem q hq
  rw [hb, hd] at hw
  simp at hw

end UGDS
