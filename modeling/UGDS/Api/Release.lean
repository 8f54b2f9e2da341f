import UGDS.Api.World
import UGDS.Io.Calls

/-!
# UGDS.Api.Release

When DMA memory is released: over runs of the whole library with any device, `nvm_dma_unmap` is
applied only to memory that no controller may still access, as long as every wait is answered in
time and every Delete Queue command succeeds. The library looks at neither when it releases memory.

* `World.call_keepsQuiet`: what one step does to the log and to the queue pairs.
* `release_safe`: in a run with a clean log every release was safe.
* `release_outstanding`: a read that times out releases its buffer while the command is outstanding.
-/

namespace UGDS

open Nvm Lib Drv

namespace World

/-- Nothing is outstanding anywhere and every release so far was safe. -/
structure Quiet (w : World) : Prop where
  idle : ∀ p ∈ w.pairs, p.Idle
  safe : AllSafe w.log

/-- From `w` to `w'` the log grows, and if it is clean at the end then the world stays quiet. -/
structure KeepsQuiet (w w' : World) : Prop where
  log : w.log <+: w'.log
  quiet : Clean w'.log → w.Quiet → w'.Quiet

section KeepsQuiet

variable {w w' w'' : World}

theorem KeepsQuiet.refl (w : World) : KeepsQuiet w w := ⟨List.prefix_rfl, fun _ h => h⟩

theorem KeepsQuiet.trans (h : KeepsQuiet w w') (h' : KeepsQuiet w' w'') : KeepsQuiet w w'' :=
  ⟨h.log.trans h'.log, fun hc hq => h'.quiet hc (h.quiet (hc.of_prefix h'.log) hq)⟩

/-- A step that touches neither the queue pairs nor the log. -/
theorem KeepsQuiet.of_eq (hp : w'.pairs = w.pairs) (hl : w'.log = w.log) : KeepsQuiet w w' :=
  ⟨by rw [hl], fun _ hq => ⟨by rw [hp]; exact hq.idle, by rw [hl]; exact hq.safe⟩⟩

theorem mem_pairs {p : Qp} :
    p ∈ w.pairs ↔ (∃ hs ∈ w.handles, p ∈ hs.pairs) ∨ ∃ f ∈ w.freed, f.pair = p := by
  simp [pairs]

theorem mem_handle_pairs {hs : HandleState} {p : Qp} :
    p ∈ hs.pairs ↔ p = hs.aq ∨ ∃ q ∈ hs.qps, q.pair = p := by
  simp [HandleState.pairs]

theorem unmap_keepsQuiet (w : World) (current : Task) (dma : NvmDma) (last : Bool) :
    KeepsQuiet w (w.unmap current dma last) := by
  refine ⟨List.prefix_append _ _, fun _ hq => ⟨hq.idle, fun u hu => ?_⟩⟩
  rcases List.mem_append.mp hu with hu | hu
  · exact hq.safe u hu
  · obtain rfl := Event.unmap.inj (List.mem_singleton.mp hu)
    exact ⟨fun p hp a _ => (hq.idle p hp).not_inUse a, fun m hm => by cases hm⟩

/-- Talking to a device, when the new queue pairs are idle afterwards. -/
theorem session_keepsQuiet {c : Ctx} {pre : Prop} {s s' : Sess} (hl : Leads c pre s s')
    (hlog : s.log = w.log) (hlog' : w'.log = s'.log)
    (hstart : w.Quiet → pre ∧ s.Good c)
    (hend : w.Quiet → s'.Good c → ∀ p ∈ w'.pairs, p.Idle) : KeepsQuiet w w' := by
  refine ⟨by rw [← hlog, hlog']; exact hl.log, fun hc hq => ?_⟩
  rw [hlog'] at hc
  obtain ⟨hpre, hg⟩ := hstart hq
  have hg' := hl.good hpre hc hg
  exact ⟨hend hq hg', by rw [hlog']; exact hg'.safe⟩

end KeepsQuiet

/-! ## uGDSHandleRegister -/

section Register

variable {dev : Device} {w w' : World} {r : RegCall} {e : OpError}

theorem registerAq_keepsQuiet {P : Nat} {mapper : Mapper} {aqDma : NvmDma} {pair : Qp}
    (hpair : pair.Idle) (h : registerAq dev P w r mapper aqDma pair = some (e, w')) :
    KeepsQuiet w w' := by
  simp only [registerAq] at h
  generalize hw₁ : w.reset r mapper.ctrlId mapper.ctrl aqDma = w₁ at h
  have hp₁ : w₁.pairs = w.pairs := by rw [← hw₁]; rfl
  have hl₁ : w₁.log = w.log := by rw [← hw₁]; rfl
  have hfree : (w₁.ctlr r.device).table.FreeAbove 0 := by
    rw [← hw₁]
    simp [reset, QTable.FreeAbove, QTable.empty]
  refine (KeepsQuiet.of_eq hp₁ hl₁).trans ?_
  split at h
  · cases h
  · rename_i s hs
    cases h
    refine session_keepsQuiet (registerQueues_spec hs).1 rfl rfl
      (fun hq => ⟨hfree, hpair, hq.idle, hq.safe⟩) fun hq hg p hp => ?_
    rcases mem_pairs.mp hp with hp | ⟨f, hf, rfl⟩
    · exact hq.idle p (mem_pairs.mpr (.inl hp))
    · rcases List.mem_append.mp hf with hf | hf
      · exact hq.idle _ (mem_pairs.mpr (.inr ⟨f, hf, rfl⟩))
      · rw [List.mem_singleton.mp hf]
        exact hg.idle
  · rename_i b s hs
    cases h
    obtain ⟨hl, hok⟩ := registerQueues_spec hs
    obtain ⟨-, hidle, -, hb⟩ := hok b rfl hpair
    refine session_keepsQuiet hl rfl rfl (fun hq => ⟨hfree, hpair, hq.idle, hq.safe⟩) fun hq hg p hp => ?_
    rcases mem_pairs.mp hp with ⟨x, hx, hxp⟩ | hp
    · rcases List.mem_append.mp hx with hx | hx
      · exact hq.idle p (mem_pairs.mpr (.inl ⟨x, hx, hxp⟩))
      · rw [List.mem_singleton.mp hx] at hxp
        rcases mem_handle_pairs.mp hxp with rfl | ⟨q, hq', rfl⟩
        · exact hidle
        · obtain ⟨i, hi⟩ := List.mem_iff_getElem?.mp hq'
          exact (hb i q hi).idle
    · exact hq.idle p (mem_pairs.mpr (.inr hp))

theorem unmaps_keepsQuiet (w : World) (current : Task) (dmas : List (NvmDma × Bool)) :
    KeepsQuiet w (w.unmaps current dmas) := by
  induction dmas generalizing w with
  | nil => exact .refl w
  | cons x dmas ih => exact (unmap_keepsQuiet w current x.1 x.2).trans (ih _)

theorem handleRegister_keepsQuiet {j : Nat} (h : w.handleRegister dev (2 ^ j) r = some (e, w')) :
    KeepsQuiet w w' := by
  have hnumbered (k : KState) : KeepsQuiet w { w.numbered r with k := k } := .of_eq rfl rfl
  cases registers_of_call h with
  | refused _ => exact .refl w
  | unmapped k dmas => exact (hnumbered k).trans (unmaps_keepsQuiet _ _ _)
  | @reset ctrl k _ _ _ _ _ hctrl hpair hreg =>
    have hpage : ctrl.pageSize = 2 ^ j := by rw [(nvmCtrlInit_ok hctrl).2]
    exact (hnumbered k).trans (registerAq_keepsQuiet (createAdmin_idle hpage hpair) hreg)

end Register

/-! ## The other calls -/

section Calls

variable {dev : Device} {P : Nat} {w w' : World}

theorem teardown_leads {c : Ctx} (hs : HandleState) (s : Sess) :
    Leads c True s (teardown c hs s) := by
  unfold teardown
  split
  · exact cleanupQps_leads _ _
  · exact (cleanupQps_leads _ _).trans (closeAq_leads _ _)

theorem handleDeregister_keepsQuiet {current : Task} {h : Nat}
    (he : w.handleDeregister dev P current h = some w') : KeepsQuiet w w' := by
  unfold handleDeregister at he
  split at he
  · cases he
  rename_i hs hf
  obtain ⟨hmem, -⟩ := find_mem hf
  simp only at he
  generalize hc : (⟨w.devFor dev h, ⟨current, w.ctrlDev h, hs.ctrl, h⟩, P, w.pairsBut h⟩ : Ctx) = c
    at he
  have hmine (p : Qp) (hp : p ∈ hs.pairs) (hq : w.Quiet) : p.Idle :=
    hq.idle p (mem_pairs.mpr (.inl ⟨hs, hmem, hp⟩))
  cases he
  refine session_keepsQuiet (teardown_leads hs _) rfl rfl (fun hq => ⟨trivial, ?_, ?_, hq.safe⟩)
    fun hq hg p hp => ?_
  · exact hmine _ (mem_handle_pairs.mpr (.inl rfl)) hq
  · rw [← hc]
    intro p hp
    rcases List.mem_append.mp hp with hp | hp
    · obtain ⟨x, hx, hxp⟩ := List.mem_flatMap.mp hp
      refine hq.idle p (mem_pairs.mpr (.inl ⟨x, hx, ?_⟩))
      split at hxp
      · exact List.mem_cons_of_mem _ hxp
      · exact hxp
    · exact hq.idle p (List.mem_append_right _ hp)
  · rcases mem_pairs.mp hp with ⟨x, hx, hxp⟩ | ⟨f, hf', rfl⟩
    · exact hq.idle p (mem_pairs.mpr (.inl ⟨x, (List.mem_filter.mp hx).1, hxp⟩))
    · rcases List.mem_append.mp hf' with hf' | hf'
      · exact hq.idle _ (mem_pairs.mpr (.inr ⟨f, hf', rfl⟩))
      · rcases List.mem_cons.mp hf' with rfl | hf'
        · exact hg.idle
        · obtain ⟨q, hq', rfl⟩ := List.mem_map.mp hf'
          exact hmine _ (mem_handle_pairs.mpr (.inr ⟨q, hq', rfl⟩)) hq

theorem unmapBuf_keepsQuiet (w : World) (current : Task) (b : Buf) : KeepsQuiet w (w.unmapBuf current b) :=
  (unmap_keepsQuiet w current b.dma true).trans (.of_eq rfl rfl)

theorem driverClose_keepsQuiet (w : World) (current : Task) : KeepsQuiet w (w.driverClose current).2 := by
  have hall (reg : List Buf) (w : World) :
      KeepsQuiet w (reg.foldl (fun w b => w.unmapBuf current b) w) := by
    induction reg generalizing w with
    | nil => exact .refl w
    | cons b reg ih => exact (unmapBuf_keepsQuiet w current b).trans (ih _)
  unfold driverClose
  split
  · exact .refl w
  · exact (hall w.bufRegistry w).trans (.of_eq rfl rfl)

theorem bufRegister_keepsQuiet {env : DeviceMapEnv} {current : Task} {base length : Nat} {e : OpError}
    (h : w.bufRegister P env current base length = some (e, w')) : KeepsQuiet w w' := by
  obtain ⟨-, k, rfl, -⟩ | ⟨id, hs, k, dma, -, -, -, -, -, -, rfl⟩ := bufRegister_cases h
  · exact .of_eq rfl rfl
  · exact .of_eq rfl rfl

theorem bufDeregister_keepsQuiet (w : World) (current : Task) (base : Nat) :
    KeepsQuiet w (w.bufDeregister current base).2 := by
  unfold bufDeregister
  split
  · exact .refl w
  split
  · exact .refl w
  · exact (unmapBuf_keepsQuiet w current _).trans (.of_eq rfl rfl)

/-- A handle is replaced in a world that agrees with `w` on the other queue pairs. -/
theorem setHandle_keepsQuiet {w₁ : World} {hs' : HandleState} (hh : w₁.handles = w.handles)
    (hfr : w₁.freed = w.freed) (hlog : w.log <+: w₁.log)
    (hsafe : w.Quiet → Clean w₁.log → AllSafe w₁.log)
    (hnew : w.Quiet → Clean w₁.log → ∀ p ∈ hs'.pairs, p.Idle) : KeepsQuiet w (w₁.setHandle hs') := by
  refine ⟨hlog, fun hc hq => ⟨fun p hp => ?_, hsafe hq hc⟩⟩
  rcases mem_pairs.mp hp with ⟨x, hx, hxp⟩ | ⟨f, hf', rfl⟩
  · rcases mem_setHandle hx with hx | rfl
    · exact hq.idle p (mem_pairs.mpr (.inl ⟨x, hh ▸ hx, hxp⟩))
    · exact hnew hq hc p hxp
  · exact hq.idle _ (mem_pairs.mpr (.inr ⟨f, hfr ▸ hf', rfl⟩))

/-- A call of `do_io` on an idle pair leaves the pair idle, or the log says that a wait ran out. -/
theorem io_keepsQuiet {env : DeviceMapEnv} {current : Task} {h : Nat} {a : IoArgs} {n : Int}
    (he : w.io dev P env current h a = some (n, w')) : KeepsQuiet w w' := by
  unfold io at he
  split at he
  · cases he
  rename_i hs hf
  obtain ⟨hmem, -⟩ := find_mem hf
  obtain ⟨r, hr, he⟩ := Option.map_eq_some_iff.mp he
  cases he
  have hmine (p : Qp) (hp : p ∈ hs.pairs) (hq : w.Quiet) : p.Idle :=
    hq.idle p (mem_pairs.mpr (.inl ⟨hs, hmem, hp⟩))
  have hcall (k : KState) : KeepsQuiet w (({ w with
      k := k
      t := r.t
      log := if r.used.isSome && r.hs.busy hs.qpIdx then w.log ++ [.timeout] else w.log
      } : World).setHandle r.hs) := by
    rcases doIo_cases hr with ⟨-, -, he, hu, -⟩ |
      ⟨dma, fly, start, q, ret, t', pair, -, -, hq, hl, rfl⟩
    · rw [hu, he]
      exact setHandle_keepsQuiet rfl rfl List.prefix_rfl (fun hq _ => hq.safe)
        fun hq _ p hp => hmine p hp hq
    · have hlt := (List.getElem?_eq_some_iff.mp hq).1
      simp only [Option.isSome_some, Bool.true_and, HandleState.busy, List.getElem?_set_self hlt]
      by_cases hht : pair.sq.q.head = pair.sq.q.tail
      · simp only [hht, ne_eq, not_true_eq_false, decide_false, Bool.false_eq_true, if_false]
        refine setHandle_keepsQuiet rfl rfl List.prefix_rfl (fun hq _ => hq.safe) ?_
        intro hquiet _ p hp
        rcases mem_handle_pairs.mp hp with rfl | ⟨q', hq', rfl⟩
        · exact hmine _ (mem_handle_pairs.mpr (.inl rfl)) hquiet
        · rcases List.mem_or_eq_of_mem_set hq' with hq' | rfl
          · exact hmine _ (mem_handle_pairs.mpr (.inr ⟨q', hq', rfl⟩)) hquiet
          · have hidle := hmine _ (mem_handle_pairs.mpr (.inr ⟨q, List.mem_of_getElem? hq, rfl⟩))
              hquiet
            obtain ⟨⟨m, hm⟩, -⟩ := ioLoop_inv hidle hl
            exact hm.idle_iff.mpr hht
      · simp only [ne_eq, hht, not_false_eq_true, decide_true, if_true]
        exact setHandle_keepsQuiet rfl rfl (List.prefix_append _ _)
          (fun _ hc => absurd hc not_clean_timeout) fun _ hc => absurd hc not_clean_timeout
  cases hu : r.unmapped with
  | none =>
    simp only [afterIo, hu]
    exact hcall _
  | some dma =>
    simp only [afterIo, hu]
    exact (hcall _).trans (unmap_keepsQuiet _ _ _ _)

/-- Between calls: the device does nothing on an idle pair. -/
theorem act_keepsQuiet {acts : List DevAct} {which : Which} (h : w.act acts which = some w') :
    KeepsQuiet w w' := by
  have hset (w₁ : World) (hs hs' : HandleState) (hmem : hs ∈ w.handles)
      (hh : w₁.handles = w.handles) (hfr : w₁.freed = w.freed) (hlog : w₁.log = w.log)
      (hnew : (∀ p ∈ hs.pairs, p.Idle) → ∀ p ∈ hs'.pairs, p.Idle) :
      KeepsQuiet w (w₁.setHandle hs') := by
    refine setHandle_keepsQuiet hh hfr (by rw [hlog]) (fun hq _ => by rw [hlog]; exact hq.safe) ?_
    intro hq _
    exact hnew fun p hp => hq.idle p (mem_pairs.mpr (.inl ⟨hs, hmem, hp⟩))
  cases acted_of_act h with
  | @admin id hs hf _ =>
    refine hset (w.adminDone _ _ _) hs _ (find_mem hf).1 rfl rfl rfl fun hi p hp => ?_
    rcases mem_handle_pairs.mp hp with rfl | ⟨q, hq, rfl⟩
    · exact (hi hs.aq (mem_handle_pairs.mpr (.inl rfl))).acts acts
    · exact hi _ (mem_handle_pairs.mpr (.inr ⟨q, hq, rfl⟩))
  | @io id i hs q hf hq _ =>
    refine hset w hs _ (find_mem hf).1 rfl rfl rfl fun hi p hp => ?_
    rcases mem_handle_pairs.mp hp with rfl | ⟨q', hq', rfl⟩
    · exact hi _ (mem_handle_pairs.mpr (.inl rfl))
    · rcases List.mem_or_eq_of_mem_set hq' with hq' | rfl
      · exact hi _ (mem_handle_pairs.mpr (.inr ⟨q', hq', rfl⟩))
      · have hqp := hi q.pair (mem_handle_pairs.mpr (.inr ⟨q, List.mem_of_getElem? hq, rfl⟩))
        exact hqp.acts acts
  | @freed n f hf _ =>
    generalize hw₁ : (if f.admin then w.adminDone (w.ctrlDev f.ctrlId) f.pair
      (acts.foldl Qp.devStep f.pair) else w) = w₁
    have hh : w₁.handles = w.handles := by
      rw [← hw₁]
      split <;> rfl
    have hl : w₁.log = w.log := by
      rw [← hw₁]
      split <;> rfl
    refine ⟨by rw [← hl], fun _ hq => ⟨fun p hp => ?_, ?_⟩⟩
    · rcases mem_pairs.mp hp with ⟨x, hx, hxp⟩ | ⟨f', hf', rfl⟩
      · exact hq.idle p (mem_pairs.mpr (.inl ⟨x, hh ▸ hx, hxp⟩))
      · rcases List.mem_or_eq_of_mem_set hf' with hf' | rfl
        · exact hq.idle _ (mem_pairs.mpr (.inr ⟨f', hf', rfl⟩))
        · have hfp := hq.idle f.pair (mem_pairs.mpr (.inr ⟨f, List.mem_of_getElem? hf, rfl⟩))
          exact hfp.acts acts
    · show AllSafe w₁.log
      rw [hl]
      exact hq.safe

end Calls

/-! ## Runs -/

theorem call_keepsQuiet {dev : Device} {j : Nat} {w w' : World} {l : Label} {ret : Ret}
    (h : w.call dev (2 ^ j) l = some (ret, w')) : KeepsQuiet w w' := by
  cases l with
  | driverOpen =>
    cases h
    exact .of_eq rfl rfl
  | driverClose current =>
    cases h
    exact driverClose_keepsQuiet w current
  | handleRegister r =>
    obtain ⟨⟨e, w₁⟩, hr, he⟩ := Option.map_eq_some_iff.mp h
    cases he
    exact handleRegister_keepsQuiet hr
  | handleDeregister current id =>
    obtain ⟨w₁, hr, he⟩ := Option.map_eq_some_iff.mp h
    cases he
    exact handleDeregister_keepsQuiet hr
  | bufRegister env current base length =>
    obtain ⟨⟨e, w₁⟩, hr, he⟩ := Option.map_eq_some_iff.mp h
    cases he
    exact bufRegister_keepsQuiet hr
  | bufDeregister current base =>
    cases h
    exact bufDeregister_keepsQuiet w current base
  | io env current id a =>
    obtain ⟨⟨n, w₁⟩, hr, he⟩ := Option.map_eq_some_iff.mp h
    cases he
    exact io_keepsQuiet hr
  | device acts which =>
    obtain ⟨w₁, hr, he⟩ := Option.map_eq_some_iff.mp h
    cases he
    exact act_keepsQuiet hr

theorem run_keepsQuiet {dev : Device} {j : Nat} {w w' : World} {tr : List (World × Label)}
    (h : Run (World.step dev (2 ^ j)) w tr w') : KeepsQuiet w w' := by
  induction h with
  | refl => exact .refl _
  | cons hs _ ih =>
    obtain ⟨⟨ret, w₁⟩, hr, he⟩ := Option.map_eq_some_iff.mp hs
    cases he
    exact (call_keepsQuiet hr).trans ih

theorem quiet_init (nCtrls : Nat) : (init nCtrls).Quiet :=
  ⟨fun p hp => by simp [init, pairs] at hp, fun u hu => by simp [init] at hu⟩

end World

/-- In every run, with any device, in which every wait was answered in time and every deletion of a
queue succeeded: whatever was unmapped held no address of a command that was not completed, and was
not the memory of a queue that the controller still had. -/
theorem release_safe {dev : Device} {j nCtrls : Nat} {tr : List (World × Label)} {w : World}
    (hrun : Run (World.step dev (2 ^ j)) (.init nCtrls) tr w) (hclean : Clean w.log) :
    AllSafe w.log :=
  ((World.run_keepsQuiet hrun).quiet hclean (World.quiet_init nCtrls)).safe

def Event.isUnmap : Event → Bool
  | .unmap _ => true
  | _ => false

theorem clean_of_all {log : List Event} (h : log.all Event.isUnmap = true) : Clean log := by
  intro e he
  have := List.all_eq_true.mp h e he
  cases e with
  | timeout => cases this
  | deleteFailed r => cases this
  | unmap u => exact ⟨u, rfl⟩

/-- Every kind of call, with a controller that answers: seven mappings are released. -/
theorem release_safe_prompt :
    ∃ tr w, Run (World.step .prompt (2 ^ 12)) (.init 1) tr w ∧ w.log.length = 7 ∧ Clean w.log ∧
      AllSafe w.log := by
  obtain ⟨tr, w, hr, -, hw⟩ := follow_run (World.step .prompt (2 ^ 12)) (fun _ _ => true) (.init 1)
    [.driverOpen, .handleRegister (.ok 0), .bufRegister .ok ⟨0, 0⟩ 0x200000 4096,
      .io .ok ⟨0, 0⟩ 0 (.page 0x200000), .io .ok ⟨0, 0⟩ 0 (.page 0x300000),
      .bufDeregister ⟨0, 0⟩ 0x200000, .handleDeregister ⟨0, 0⟩ 0]
    (fun w => w.log.length = 7 && w.log.all Event.isUnmap) (by decide +kernel)
  simp only [Bool.and_eq_true, decide_eq_true_eq] at hw
  have hclean := clean_of_all hw.2
  exact ⟨tr, w, hr, hw.1, hclean, release_safe hr hclean⟩

/-- A controller that executes admin commands only. -/
def Nvm.Device.adminOnly : Device := fun _ qp =>
  if qp.sq.q.no = 0 then [.fetch, .complete 0 .zero] else []

/-- The release of a mapping that the first command of some queue pair points to, while nothing has
been completed on that pair. -/
def Event.stray : Event → Bool
  | .unmap u => u.pairs.any fun p => p.posted.isEmpty && p.cmds.head?.any fun cmd =>
      cmd.prp1 ≠ 0 && cmd.prp1 ∈ u.dma.ioaddrs
  | _ => false

theorem Event.stray_unsafe {log : List Event} (h : log.any Event.stray = true) : ¬ AllSafe log := by
  intro hsafe
  obtain ⟨e, he, hst⟩ := List.any_eq_true.mp h
  cases e with
  | timeout => cases hst
  | deleteFailed r => cases hst
  | unmap u =>
    obtain ⟨p, hp, hst⟩ := List.any_eq_true.mp hst
    simp only [Bool.and_eq_true, List.isEmpty_iff] at hst
    obtain ⟨hpo, hcmd⟩ := hst
    cases hc : p.cmds with
    | nil =>
      rw [hc] at hcmd
      cases hcmd
    | cons cmd cmds =>
      rw [hc] at hcmd
      simp only [List.head?_cons, Option.any_some, Bool.and_eq_true, decide_eq_true_eq] at hcmd
      exact (hsafe u he).1 p hp cmd.prp1 hcmd.2
        ⟨0, cmd, by rw [hc]; rfl, by simp [hpo], hcmd.1, .inl rfl⟩

/-- A read into a buffer that is not registered gives up and unmaps the buffer, and the controller
still has the command. -/
theorem release_outstanding :
    ¬ ∀ (dev : Device) (j nCtrls : Nat) (tr : List (World × Label)) (w : World),
      Run (World.step dev (2 ^ j)) (.init nCtrls) tr w → AllSafe w.log := by
  intro h
  obtain ⟨tr, w, hr, -, hw⟩ := follow_run (World.step .adminOnly (2 ^ 12)) (fun _ _ => true) (.init 1)
    [.driverOpen, .handleRegister (.ok 0), .io .ok ⟨0, 0⟩ 0 (.page 0x200000)]
    (fun w => w.log.any Event.stray) (by decide +kernel)
  exact Event.stray_unsafe hw (h _ _ _ tr w hr)

end UGDS
