import UGDS.Api.World
import UGDS.Io.Calls

/-!
# UGDS.Api.Effect

What a step of the library does to its state, in one place (`Effect`): the cases are the outcomes of
the calls, with the kernel's mappings, the clock and the log left open. Invariants of whole runs
follow from it without looking into the calls again.

* `HandleState.Moves`: what transfers and the device do to a registered handle.
* `World.call_effect`: every call has one of the effects.
* `World.run_inv`: the invariant rule that follows.
* `World.Wf.effect`: handles stay consistent, whatever happens.
-/

namespace UGDS

open Nvm Lib Drv

/-- From `hs` to `hs'` only queue pairs were used: the memory and the numbers of the queues are the
same, and an idle admin pair is untouched. -/
structure HandleState.Moves (hs hs' : HandleState) : Prop where
  ctrlId : hs'.ctrlId = hs.ctrlId
  geometry : hs'.ctrl = hs.ctrl ∧ hs'.blockSize = hs.blockSize ∧
    hs'.maxTransferSize = hs.maxTransferSize
  aq : hs.aq.Idle → hs'.aq = hs.aq
  qps : ∀ (i : Nat) q', hs'.qps[i]? = some q' → ∃ q, hs.qps[i]? = some q ∧
    q'.sqDma = q.sqDma ∧ q'.cqDma = q.cqDma ∧
    ∀ n, q.pair.Inv n → (∃ n', q'.pair.Inv n') ∧ Grows q.pair q'.pair

theorem HandleState.Moves.refl (hs : HandleState) : hs.Moves hs :=
  ⟨rfl, ⟨rfl, rfl, rfl⟩, fun _ => rfl,
    fun _ q hq => ⟨q, hq, rfl, rfl, fun n h => ⟨⟨n, h⟩, .refl _⟩⟩⟩

/-- One queue pair was used. -/
theorem HandleState.Moves.set {hs : HandleState} {i rr : Nat} {q : IOQueuePair} {pair : Qp}
    (hq : hs.qps[i]? = some q)
    (hg : ∀ n, q.pair.Inv n → (∃ n', pair.Inv n') ∧ Grows q.pair pair) :
    hs.Moves { hs with rrCounter := rr, qps := hs.qps.set i { q with pair := pair } } := by
  refine ⟨rfl, ⟨rfl, rfl, rfl⟩, fun _ => rfl, fun j q' hq' => ?_⟩
  rw [List.getElem?_set] at hq'
  split at hq'
  · rename_i hij
    subst hij
    split at hq'
    · cases hq'
      exact ⟨q, hq, rfl, rfl, hg⟩
    · cases hq'
  · exact (HandleState.Moves.refl hs).qps j q' hq'

/-- The handle's page size, block size and transfer limit are those that registration `r` found. -/
structure HandleState.BuiltBy (hs : HandleState) (r : RegCall) : Prop where
  ctrl : nvmCtrlInit r.alloc hs.ctrl.pageSize r.cap = .ok hs.ctrl
  limit : maxDataSize r.cap r.mdts = some hs.maxTransferSize
  block : lbaDataSize r.lbads = some hs.blockSize

/-- The calls that may return an error status. -/
def Label.Refusable : Label → Prop
  | .driverClose _ | .handleRegister _ | .bufRegister .. | .bufDeregister .. => True
  | _ => False

/-- The effects of the calls and of the device between them. -/
inductive Effect (w : World) : Label → Ret → World → Prop where
  | opened : Effect w .driverOpen (.status .SUCCESS) { w with initialized := true }
  | closed {current : Task} {k : KState} {log : List Event} (hi : w.initialized = true) :
      Effect w (.driverClose current) (.status .SUCCESS)
        { w with
          k := k, log := log, initialized := false, defaultCtrl := none, bufRegistry := []
          unmapped := w.unmapped ++ w.bufRegistry.map Buf.id }
  /-- An error before anything but the kernel's mappings was touched. -/
  | refused {l : Label} {e : OpError} {k : KState} (hl : l.Refusable) (he : e ≠ .SUCCESS) :
      Effect w l (.status e) { w with k := k }
  /-- `uGDSHandleRegister` fails between `nvm_ctrl_init` and the reset. -/
  | notReset {r : RegCall} {e : OpError} {k : KState} {log : List Event} (he : e ≠ .SUCCESS) :
      Effect w (.handleRegister r) (.status e)
        { w with
          k := k, log := log, nextId := w.nextId + 1
          ctrlDev := Function.update w.ctrlDev w.nextId r.device }
  /-- It fails after the reset. -/
  | notBuilt {r : RegCall} {e : OpError} {k : KState} {t : Nat} {log : List Event} {c : Ctlr}
      {pair : Qp} (he : e ≠ .SUCCESS) :
      Effect w (.handleRegister r) (.status e)
        { w with
          k := k, t := t, log := log, nextId := w.nextId + 1
          ctrlDev := Function.update w.ctrlDev w.nextId r.device
          ctlr := Function.update w.ctlr r.device c
          freed := w.freed ++ [⟨w.nextId, true, pair⟩] }
  | registered {r : RegCall} {k : KState} {t : Nat} {log : List Event} {c : Ctlr}
      {hs : HandleState} (hi : w.initialized = true) (hid : hs.ctrlId = w.nextId)
      (hbuilt : hs.BuiltBy r) (haq : hs.aq.Idle) (howner : c.owner = some w.nextId)
      (hqps : ∀ (i : Nat) q, hs.qps[i]? = some q → QpBound c.table i q) :
      Effect w (.handleRegister r) (.status .SUCCESS)
        { w with
          k := k, t := t, log := log, nextId := w.nextId + 1
          ctrlDev := Function.update w.ctrlDev w.nextId r.device
          ctlr := Function.update w.ctlr r.device c
          handles := w.handles ++ [hs]
          defaultCtrl := if w.defaultCtrl = none then some w.nextId else w.defaultCtrl }
  | deregistered {current : Task} {h : Nat} {hs : HandleState} {k : KState} {t : Nat}
      {log : List Event} {tb : QTable} {pair : Qp} (hf : w.find h = some hs) :
      Effect w (.handleDeregister current h) .nothing
        { w with
          k := k, t := t, log := log
          ctlr := Function.update w.ctlr (w.ctrlDev h) { w.ctlr (w.ctrlDev h) with table := tb }
          handles := w.handles.filter fun x => x.ctrlId ≠ h
          defaultCtrl := if w.defaultCtrl = some h then none else w.defaultCtrl
          freed := w.freed ++ (⟨h, true, pair⟩ :: hs.qps.map fun q => ⟨h, false, q.pair⟩) }
  | bufRegistered {env : World.DeviceMapEnv} {current : Task} {base length id : Nat}
      {hs : HandleState} {k : KState} {dma : NvmDma} (hi : w.initialized = true)
      (hnew : w.findBuf base = none) (hd : w.defaultCtrl = some id) (hf : w.find id = some hs)
      (hctrl : dma.ctrl = id) :
      Effect w (.bufRegister env current base length) (.status .SUCCESS)
        { w with
          k := k, bufRegistry := w.bufRegistry ++ [⟨base, w.nextBuf, dma⟩]
          nextBuf := w.nextBuf + 1 }
  | bufDeregistered {current : Task} {base : Nat} {b : Buf} {k : KState} {log : List Event}
      (hi : w.initialized = true) (hb : w.findBuf base = some b) :
      Effect w (.bufDeregister current base) (.status .SUCCESS)
        { w with
          k := k, log := log, unmapped := w.unmapped ++ [b.id]
          bufRegistry := w.bufRegistry.filter fun e => e.key ≠ base }
  | transferred {env : World.DeviceMapEnv} {current : Task} {h : Nat} {a : IoArgs} {n : Int}
      {hs hs' : HandleState} {k : KState} {t : Nat} {log : List Event} (hf : w.find h = some hs)
      (hm : hs.Moves hs') :
      Effect w (.io env current h a) (.bytes n)
        ({ w with k := k, t := t, log := log }.setHandle hs')
  /-- The device has worked on a queue pair of a handle. The table changes with the admin pair. -/
  | acted {acts : List DevAct} {which : World.Which} {h : Nat} {hs hs' : HandleState} {tb : QTable}
      (hf : w.find h = some hs) (hm : hs.Moves hs')
      (htb : hs.aq.Idle → tb = (w.ctlr (w.ctrlDev h)).table) :
      Effect w (.device acts which) .nothing
        ({ w with
          ctlr := Function.update w.ctlr (w.ctrlDev h)
            { w.ctlr (w.ctrlDev h) with table := tb } }.setHandle hs')
  /-- The device has worked on a queue pair that the library has given up. -/
  | actedFreed {acts : List DevAct} {which : World.Which} {n : Nat} {f : Freed} {pair : Qp}
      {tb : QTable} (hf : w.freed[n]? = some f) (hs : w.serves f.ctrlId = true) :
      Effect w (.device acts which) .nothing
        { w with
          ctlr := Function.update w.ctlr (w.ctrlDev f.ctrlId)
            { w.ctlr (w.ctrlDev f.ctrlId) with table := tb }
          freed := w.freed.set n { f with pair := pair } }

namespace World

section Register

variable {dev : Device} {w w' : World} {r : RegCall} {e : OpError}

/-- A reset is seen as the controller's new state. -/
theorem leave_reset {id : Nat} {ctrl : NvmCtrl} {aqDma : NvmDma} (s : Sess) :
    (w.reset r id ctrl aqDma).leave r.device s =
      { w with
        t := s.admin.t, k := s.k, log := s.log
        ctlr := Function.update w.ctlr r.device
          { (w.reset r id ctrl aqDma).ctlr r.device with table := s.table } } := by
  simp [reset, leave]

theorem registerAq_effect {j : Nat} {w₀ : World} {mapper : Mapper} {aqDma : NvmDma} {pair : Qp}
    {k : KState} (hi : w₀.initialized = true) (hid : mapper.ctrlId = w₀.nextId)
    (hctrl : nvmCtrlInit r.alloc mapper.ctrl.pageSize r.cap = .ok mapper.ctrl)
    (hw : w = { w₀ with
      k := k, nextId := w₀.nextId + 1
      ctrlDev := Function.update w₀.ctrlDev w₀.nextId r.device })
    (hpair : pair.Idle) (h : registerAq dev (2 ^ j) w r mapper aqDma pair = some (e, w')) :
    Effect w₀ (.handleRegister r) (.status e) w' := by
  simp only [registerAq] at h
  split at h
  · cases h
  · cases h
    rw [leave_reset, hw, hid]
    exact .notBuilt (by decide)
  · rename_i b s hs
    cases h
    obtain ⟨hlimit, hblock⟩ := registerQueues_sizes hs
    obtain ⟨-, hok⟩ := registerQueues_spec hs
    obtain ⟨hdev, haq, -, hb⟩ := hok b rfl hpair
    -- the device has answered, so the reset has made the new handle its owner
    have hserves : (w.reset r mapper.ctrlId mapper.ctrl aqDma).serves mapper.ctrlId = true := by
      by_contra hn
      exact hdev (by simp only [devFor, hn, if_false, Bool.false_eq_true])
    have hdevId : (w.reset r mapper.ctrlId mapper.ctrl aqDma).ctrlDev mapper.ctrlId = r.device := by
      rw [hid]
      simp [reset, hw]
    simp only [serves, hdevId, decide_eq_true_eq] at hserves
    rw [leave_reset]
    generalize (w.reset r mapper.ctrlId mapper.ctrl aqDma).ctlr r.device = c at hserves ⊢
    rw [hw, hid] at *
    exact .registered hi hid ⟨hctrl, hlimit, hblock⟩ haq hserves hb

theorem handleRegister_effect {j : Nat} (h : w.handleRegister dev (2 ^ j) r = some (e, w')) :
    Effect w (.handleRegister r) (.status e) w' := by
  cases registers_of_call h with
  | refused he => exact .refused trivial he
  | unmapped k dmas =>
    obtain ⟨k', log, heq⟩ := unmaps_eq { w.numbered r with k := k } r.current dmas
    rw [heq]
    exact .notReset (by decide)
  | @reset ctrl k aqDma pair _ _ hinit hctrl hpair hreg =>
    have hpage : ctrl.pageSize = 2 ^ j := by rw [(nvmCtrlInit_ok hctrl).2]
    exact registerAq_effect hinit rfl (by rw [hpage]; exact hctrl) rfl
      (createAdmin_idle hpage hpair) hreg

end Register

section Calls

variable {dev : Device} {P : Nat} {w w' : World} {current : Task}

theorem handleDeregister_effect {h : Nat} (he : w.handleDeregister dev P current h = some w') :
    Effect w (.handleDeregister current h) .nothing w' := by
  unfold handleDeregister at he
  split at he
  · cases he
  · rename_i hs hf
    cases he
    exact .deregistered hf

/-- Unmapping buffers one after another. -/
theorem foldl_unmapBuf (current : Task) (reg : List Buf) (w : World) :
    reg.foldl (fun w b => w.unmapBuf current b) w =
      { w with
        k := reg.foldl (fun k b => (k.unmap current b.dma.vaddr).k) w.k
        log := w.log ++ reg.map fun b => .unmap ⟨b.dma, none, w.pairs, .empty⟩
        unmapped := w.unmapped ++ reg.map Buf.id } := by
  induction reg generalizing w with
  | nil => simp
  | cons b reg ih =>
    rw [List.foldl_cons, ih]
    simp [unmapBuf, unmap, pairs]

theorem driverClose_effect (w : World) (current : Task) :
    Effect w (.driverClose current) (.status (w.driverClose current).1)
      (w.driverClose current).2 := by
  unfold driverClose
  split
  · exact .refused trivial (by simp)
  · rename_i hi
    rw [foldl_unmapBuf]
    exact .closed (by simpa using hi)

theorem bufRegister_effect {env : DeviceMapEnv} {base length : Nat} {e : OpError}
    (h : w.bufRegister P env current base length = some (e, w')) :
    Effect w (.bufRegister env current base length) (.status e) w' := by
  obtain ⟨he, k, rfl, -⟩ | ⟨id, hs, k, dma, rfl, hi, hnew, hd, hf, hm, rfl⟩ := bufRegister_cases h
  · exact .refused trivial he
  · have hctrl : dma.ctrl = hs.ctrlId := nvmDmaMapRange_ctrl (congrArg Prod.snd hm)
    exact .bufRegistered hi hnew hd hf (hctrl.trans (find_mem hf).2)

theorem bufDeregister_effect (w : World) (current : Task) (base : Nat) :
    Effect w (.bufDeregister current base) (.status (w.bufDeregister current base).1)
      (w.bufDeregister current base).2 := by
  unfold bufDeregister
  split
  · exact .refused trivial (by simp)
  rename_i hi
  split
  · exact .refused trivial (by simp)
  · rename_i b hb
    exact .bufDeregistered (by simpa using hi) hb

theorem unmap_setHandle (w : World) (hs : HandleState) (current : Task) (dma : NvmDma) :
    ∃ k log, (w.setHandle hs).unmap current dma true =
      { w with k := k, log := log }.setHandle hs :=
  ⟨(w.k.unmap current dma.vaddr).k,
    w.log ++ [.unmap ⟨dma, none, (w.setHandle hs).pairs, .empty⟩], rfl⟩

theorem io_effect {env : DeviceMapEnv} {h : Nat} {a : IoArgs} {n : Int}
    (he : w.io dev P env current h a = some (n, w')) :
    Effect w (.io env current h a) (.bytes n) w' := by
  unfold io at he
  split at he
  · cases he
  rename_i hs hf
  obtain ⟨r, hr, he⟩ := Option.map_eq_some_iff.mp he
  cases he
  have hm : hs.Moves r.hs := by
    rcases doIo_cases hr with ⟨-, -, he, -⟩ | ⟨dma, fly, start, q, ret, t', pair, -, -, hq, hl, rfl⟩
    · rw [he]
      exact .refl hs
    · exact .set hq fun n hi => ioLoop_inv hi hl
  cases hu : r.unmapped with
  | none =>
    simp only [afterIo, hu]
    exact .transferred hf hm
  | some dma =>
    simp only [afterIo, hu]
    obtain ⟨k, log, he⟩ := unmap_setHandle _ r.hs current dma
    rw [he]
    exact .transferred hf hm

theorem act_effect {acts : List DevAct} {which : Which} (h : w.act acts which = some w') :
    Effect w (.device acts which) .nothing w' := by
  cases acted_of_act h with
  | @admin id hs hf _ =>
    refine .acted hf
      ⟨rfl, ⟨rfl, rfl, rfl⟩, fun hi => hi.foldl_devStep acts, (HandleState.Moves.refl hs).qps⟩
      fun hi => ?_
    rw [hi.foldl_devStep]
    exact QTable.after_same _ _ _
  | @io id i hs q hf hq _ =>
    have hm : hs.Moves { hs with qps := hs.qps.set i { q with pair := acts.foldl Qp.devStep q.pair } } :=
      .set hq fun n hi => ⟨⟨n, hi.foldl acts⟩, .of_acts acts _⟩
    have he := @Effect.acted w acts (.io id i) id hs _ _ hf hm fun _ => rfl
    simpa using he
  | @freed n f hf hserves =>
    split
    · exact .actedFreed hf hserves
    · have he := @Effect.actedFreed w acts (.freed n) n f (acts.foldl Qp.devStep f.pair)
        (w.ctlr (w.ctrlDev f.ctrlId)).table hf hserves
      simpa using he

end Calls

/-- Every call has one of the effects. -/
theorem call_effect {dev : Device} {j : Nat} {w w' : World} {l : Label} {ret : Ret}
    (h : w.call dev (2 ^ j) l = some (ret, w')) : Effect w l ret w' := by
  cases l with
  | driverOpen =>
    cases h
    exact .opened
  | driverClose current =>
    cases h
    exact driverClose_effect w current
  | handleRegister r =>
    obtain ⟨⟨e, w₁⟩, hr, he⟩ := Option.map_eq_some_iff.mp h
    cases he
    exact handleRegister_effect hr
  | handleDeregister current id =>
    obtain ⟨w₁, hr, he⟩ := Option.map_eq_some_iff.mp h
    cases he
    exact handleDeregister_effect hr
  | bufRegister env current base length =>
    obtain ⟨⟨e, w₁⟩, hr, he⟩ := Option.map_eq_some_iff.mp h
    cases he
    exact bufRegister_effect hr
  | bufDeregister current base =>
    cases h
    exact bufDeregister_effect w current base
  | io env current id a =>
    obtain ⟨⟨n, w₁⟩, hr, he⟩ := Option.map_eq_some_iff.mp h
    cases he
    exact io_effect hr
  | device acts which =>
    obtain ⟨w₁, hr, he⟩ := Option.map_eq_some_iff.mp h
    cases he
    exact act_effect hr

/-- The invariant rule for runs of the library: an invariant that no effect breaks, as long as the
steps meet the condition `good`. -/
theorem run_inv {dev : Device} {j : Nat} (inv : World → Prop) (good : World → Label → Prop)
    (heff : ∀ w l ret w', inv w → good w l → Effect w l ret w' → inv w') {w w' : World}
    {tr : List (World × Label)} (hr : Run (World.step dev (2 ^ j)) w tr w') (hw : inv w)
    (hg : ∀ x ∈ tr, good x.1 x.2) : inv w' := by
  refine (Run.inv inv good (fun s l s' hi hgl hs => ?_) hr hw hg).1
  obtain ⟨⟨ret, w₁⟩, hc, he⟩ := Option.map_eq_some_iff.mp hs
  cases he
  exact heff s l ret w₁ hi hgl (call_effect hc)

/-! ## What always holds of the handles -/

end World

/-- A handle as registration and use leave it: its number was given out, nothing is outstanding on
its admin queue, its sizes are those of its registration, and its queue pairs are in states of
`Qp.Inv`. -/
structure HandleState.Wf (hs : HandleState) (nextId : Nat) : Prop where
  id_lt : hs.ctrlId < nextId
  built : ∃ r, hs.BuiltBy r
  aq : hs.aq.Idle
  pairs : ∀ q ∈ hs.qps, ∃ n, q.pair.Inv n

theorem HandleState.Wf.moves {hs hs' : HandleState} {n : Nat} (h : hs.Wf n) (hm : hs.Moves hs') :
    hs'.Wf n := by
  obtain ⟨h1, h2, h3⟩ := hm.geometry
  obtain ⟨r, hr⟩ := h.built
  refine ⟨by rw [hm.ctrlId]; exact h.id_lt,
    ⟨r, by rw [h1]; exact hr.ctrl, by rw [h3]; exact hr.limit, by rw [h2]; exact hr.block⟩,
    by rw [hm.aq h.aq]; exact h.aq, fun q' hq' => ?_⟩
  obtain ⟨i, hi⟩ := List.mem_iff_getElem?.mp hq'
  obtain ⟨q, hq, -, -, hg⟩ := hm.qps i q' hi
  obtain ⟨n, hn⟩ := h.pairs q (List.mem_of_getElem? hq)
  exact (hg n hn).1

namespace World

/-- The numbers of handles are not used again. -/
structure Wf (w : World) : Prop where
  handles : ∀ hs ∈ w.handles, hs.Wf w.nextId
  freed_lt : ∀ f ∈ w.freed, f.ctrlId < w.nextId
  freed_gone : ∀ f ∈ w.freed, ∀ hs ∈ w.handles, f.ctrlId ≠ hs.ctrlId

section Wf

variable {w w' : World} {l : Label} {ret : Ret}

/-- Queue pairs given up under the number `id`. -/
theorem freed_append (p : Nat → Prop) {freed more : List Freed} {id : Nat}
    (h : ∀ f ∈ freed, p f.ctrlId) (hid : p id) (hmore : ∀ f ∈ more, f.ctrlId = id) :
    ∀ f ∈ freed ++ more, p f.ctrlId := by
  intro f hf
  rcases List.mem_append.mp hf with hf | hf
  · exact h f hf
  · rw [hmore f hf]
    exact hid

/-- A handle is replaced by one with its number. -/
theorem setHandle_ids (w : World) (hs : HandleState) :
    (w.setHandle hs).handles.map HandleState.ctrlId = w.handles.map HandleState.ctrlId := by
  rw [setHandle, List.map_map]
  refine List.map_congr_left fun x _ => ?_
  rw [Function.comp_apply]
  split
  · rename_i he
    exact he.symm
  · rfl

theorem Wf.setHandle (h : w.Wf) {id : Nat} {hs hs' : HandleState} (hf : w.find id = some hs)
    (hm : hs.Moves hs') : (w.setHandle hs').Wf := by
  obtain ⟨hmem, -⟩ := find_mem hf
  refine ⟨fun x hx => ?_, h.freed_lt, fun f hf' x hx => ?_⟩
  · rcases mem_setHandle hx with hx | rfl
    · exact h.handles x hx
    · exact (h.handles hs hmem).moves hm
  · rcases mem_setHandle hx with hx | rfl
    · exact h.freed_gone f hf' x hx
    · rw [hm.ctrlId]
      exact h.freed_gone f hf' hs hmem

theorem Wf.effect (h : w.Wf) (he : Effect w l ret w') : w'.Wf := by
  have hlt {n : Nat} (hn : n < w.nextId) : n < w.nextId + 1 := hn.trans (Nat.lt_succ_self _)
  have hkeep (x : HandleState) (hx : x ∈ w.handles) : x.Wf (w.nextId + 1) :=
    { h.handles x hx with id_lt := hlt (h.handles x hx).id_lt }
  cases he with
  | opened => exact ⟨h.handles, h.freed_lt, h.freed_gone⟩
  | closed hi => exact ⟨h.handles, h.freed_lt, h.freed_gone⟩
  | refused hl he => exact ⟨h.handles, h.freed_lt, h.freed_gone⟩
  | notReset he => exact ⟨hkeep, fun f hf => hlt (h.freed_lt f hf), h.freed_gone⟩
  | notBuilt he =>
    refine ⟨hkeep, ?_, ?_⟩
    · exact freed_append (· < w.nextId + 1) (fun f hf => hlt (h.freed_lt f hf))
        (Nat.lt_succ_self _) (by simp)
    · exact freed_append (fun id => ∀ x ∈ w.handles, id ≠ x.ctrlId) h.freed_gone
        (fun x hx => Nat.ne_of_gt (h.handles x hx).id_lt) (by simp)
  | @registered r k t log c hs hi hid hbuilt haq ho hq =>
    refine ⟨fun x hx => ?_, fun f hf => hlt (h.freed_lt f hf), fun f hf x hx => ?_⟩
    · rcases List.mem_append.mp hx with hx | hx
      · exact hkeep x hx
      · rw [List.mem_singleton.mp hx]
        refine ⟨by rw [hid]; exact Nat.lt_succ_self _, ⟨r, hbuilt⟩, haq, fun q hq' => ?_⟩
        obtain ⟨i, hi⟩ := List.mem_iff_getElem?.mp hq'
        exact ⟨_, (hq i q hi).idle⟩
    · rcases List.mem_append.mp hx with hx | hx
      · exact h.freed_gone f hf x hx
      · rw [List.mem_singleton.mp hx, hid]
        exact Nat.ne_of_lt (h.freed_lt f hf)
  | @deregistered current id hs k t log tb pair hf =>
    obtain ⟨hmem, hid⟩ := find_mem hf
    have hstay (x : HandleState) (hx : x ∈ w.handles.filter fun x => x.ctrlId ≠ id) :
        x ∈ w.handles ∧ x.ctrlId ≠ id := by simpa using hx
    refine ⟨fun x hx => h.handles x (hstay x hx).1, ?_, ?_⟩
    · exact freed_append (· < w.nextId) h.freed_lt (hid ▸ (h.handles hs hmem).id_lt) (by simp)
    · refine freed_append (fun i => ∀ x ∈ w.handles.filter fun x => x.ctrlId ≠ id, i ≠ x.ctrlId)
        (fun f hf' x hx => h.freed_gone f hf' x (hstay x hx).1)
        (fun x hx => (hstay x hx).2.symm) ?_
      simp
  | bufRegistered hi hnew hd hf hc => exact ⟨h.handles, h.freed_lt, h.freed_gone⟩
  | bufDeregistered hi hb => exact ⟨h.handles, h.freed_lt, h.freed_gone⟩
  | @transferred env current id a n hs hs' k t log hf hm =>
    have h₁ : ({ w with k := k, t := t, log := log } : World).Wf :=
      ⟨h.handles, h.freed_lt, h.freed_gone⟩
    exact h₁.setHandle hf hm
  | @acted acts which id hs hs' tb hf hm htb =>
    have h₁ : ({ w with
        ctlr := Function.update w.ctlr (w.ctrlDev id)
          { w.ctlr (w.ctrlDev id) with table := tb } } : World).Wf :=
      ⟨h.handles, h.freed_lt, h.freed_gone⟩
    exact h₁.setHandle hf hm
  | @actedFreed acts which n f pair tb hf hs =>
    have hmem := List.mem_of_getElem? hf
    refine ⟨h.handles, fun f' hf' => ?_, fun f' hf' => ?_⟩
    · rcases List.mem_or_eq_of_mem_set hf' with hf' | rfl
      · exact h.freed_lt f' hf'
      · exact h.freed_lt f hmem
    · rcases List.mem_or_eq_of_mem_set hf' with hf' | rfl
      · exact h.freed_gone f' hf'
      · exact h.freed_gone f hmem

theorem wf_init (nCtrls : Nat) : (init nCtrls).Wf :=
  ⟨by simp [init], by simp [init], by simp [init]⟩

end Wf

end World

end UGDS
