import UGDS.Api.Effect

/-!
# UGDS.Api.Serves

How many queue pairs a registered handle has (`uGDSHandleRegister`, `ugds_handle.cpp`), and that a
transfer finds one (`do_io`, `ugds_io.cpp`).

The number comes from DWORD0 of the answer to a Set Features command. Each half of it is a count
minus 1; a half of `0xffff` becomes 0 when 1 is added in 16 bits. A registration with no queue pairs
to create succeeds.

* `Nvm.Qp.grants`: the answers to Set Features commands that an admin queue pair has seen.
* `registerQueues_grants`: a registration that succeeds has had one, and its queue pairs are as many
  as that answer says.
* `handle_serves`: a handle can serve transfers exactly if no half of the answer was `0xffff`.
-/

namespace UGDS

open Nvm Lib Drv

/-- DWORD0 of the answers to the Set Features commands. -/
def Nvm.Qp.grants (qp : Qp) : List (BitVec 32) :=
  (qp.posted.filter fun p => p.cmd.opcode = NVM_ADMIN_SET_FEATURES).map fun p => p.cpl.dword 0

/-- `num_qps` after the answer `dw`. -/
def grantedQps (dw : BitVec 32) : Nat :=
  min (min (u16 (dw.toNat % 2 ^ 16 + 1)) (u16 (dw.toNat / 2 ^ 16 + 1))) UGDS_DEFAULT_NUM_QPS

theorem grantedQps_pos_iff (dw : BitVec 32) :
    1 ≤ grantedQps dw ↔ dw.toNat % 2 ^ 16 ≠ 0xffff ∧ dw.toNat / 2 ^ 16 ≠ 0xffff := by
  have hlt := dw.isLt
  simp only [grantedQps, UGDS_DEFAULT_NUM_QPS, u16]
  omega

/-! ## The answers during a registration -/

section Grants

variable {c : Ctx} {s s' : Sess}

theorem Nvm.Answered.grants {a a' : Admin} {cmd : NvmCmd} {cpl : NvmCpl}
    (h : Answered a a' cmd cpl) :
    a'.pair.grants = a.pair.grants ++
      if cmd.opcode = NVM_ADMIN_SET_FEATURES then [cpl.dword 0] else [] := by
  obtain ⟨k, cid, prp, hp⟩ := h.posted
  simp only [Qp.grants, hp, List.filter_append, List.map_append]
  congr 1
  by_cases hop : cmd.opcode = NVM_ADMIN_SET_FEATURES
  · simp [hop, NvmCmd.opcode_withCid]
  · simp [hop, NvmCmd.opcode_withCid]

/-- A call that returned 0, with another command. -/
theorem Nvm.Called.grants {a a' : Admin} {cmd : NvmCmd} {r : Int} (h : Called a a' cmd r)
    (hr : r = 0) (hop : cmd.opcode ≠ NVM_ADMIN_SET_FEATURES) : a'.pair.grants = a.pair.grants := by
  cases h with
  | refused h0 _ _ => exact absurd hr h0
  | timeout ht _ =>
    rw [hr] at ht
    exact absurd ht (by decide)
  | answered cpl _ ha => rw [ha.grants, if_neg hop, List.append_nil]

theorem identify_grants {ioaddr : BitVec 64} {cmd : NvmCmd} (hi : s.admin.pair.Idle)
    (hop : cmd.opcode ≠ NVM_ADMIN_SET_FEATURES) (h : identify c s ioaddr cmd = (true, s')) :
    s'.admin.pair.grants = s.admin.pair.grants := by
  have hcall := nvmAdminIdentify_called c.dev hi c.mapper.ctrl.timeout ioaddr cmd
  simp only [identify, Prod.mk.injEq, decide_eq_true_eq] at h
  obtain ⟨h0, rfl⟩ := h
  exact hcall.grants h0 hop

theorem requestQps_grants {n : Nat} (hi : s.admin.pair.Idle) (h : requestQps c s = (some n, s')) :
    ∃ dw, s'.admin.pair.grants = s.admin.pair.grants ++ [dw] ∧ n = grantedQps dw := by
  have hsize : ¬(UGDS_DEFAULT_NUM_QPS = 0 ∨ UGDS_DEFAULT_NUM_QPS = 0) := by decide
  have hop : (adminSetNumQueues UGDS_DEFAULT_NUM_QPS UGDS_DEFAULT_NUM_QPS).opcode =
      NVM_ADMIN_SET_FEATURES := by decide
  simp only [requestQps, nvmAdminRequestNumQueues, if_neg hsize, Prod.mk.injEq] at h
  obtain ⟨h0, rfl⟩ := h
  have hcall := nvmRawRpc_idle c.dev c.mapper.ctrl.timeout hi
    (adminSetNumQueues UGDS_DEFAULT_NUM_QPS UGDS_DEFAULT_NUM_QPS)
  generalize nvmRawRpc c.dev c.mapper.ctrl.timeout s.admin
    (adminSetNumQueues UGDS_DEFAULT_NUM_QPS UGDS_DEFAULT_NUM_QPS) = x at h0 hcall ⊢
  by_cases hr : x.1 = 0
  · simp only [hr, ne_eq, not_true_eq_false, if_false, if_true, Option.some.injEq] at h0 hcall ⊢
    rcases hcall with ⟨ht, -⟩ | ⟨-, -, ha⟩
    · exact absurd ht (by decide)
    · refine ⟨x.2.1.dword 0, ?_, h0.symm⟩
      rw [Sess.note, ha.grants, if_pos hop]
  · simp [hr] at h0

section Queues

variable {env : QpEnv} {i : Nat} {qp : IOQueuePair}

/-- Creating a queue. -/
theorem create_grants {isCq : Bool} {id : Nat} {dma : NvmDma}
    {build : NvmQueue → BitVec 64 → NvmCmd} {q : NvmQueue} (hi : s.admin.pair.Idle)
    (hop : ∀ q ioaddr, (build q ioaddr).opcode ≠ NVM_ADMIN_SET_FEATURES)
    (h : (nvmAdminQueueCreate c.dev c.mapper.ctrl s.admin isCq id dma 0 UGDS_DEFAULT_QUEUE_DEPTH
      build).2.1 = some q) :
    (nvmAdminQueueCreate c.dev c.mapper.ctrl s.admin isCq id dma 0 UGDS_DEFAULT_QUEUE_DEPTH
      build).2.2.pair.grants = s.admin.pair.grants := by
  obtain ⟨cmd, hcall, ⟨-, hn⟩ | ⟨hr, q', hq', hck, rfl⟩⟩ := nvmAdminQueueCreate_called c.dev hi
    c.mapper.ctrl isCq id dma 0 UGDS_DEFAULT_QUEUE_DEPTH build
  · rw [hn] at h
    cases h
  · exact hcall.grants hr (hop _ _)

theorem registerSq_grants {cq : NvmQueue} {cqDma : NvmDma} (hi : s.admin.pair.Idle)
    (h : registerSq c s env i cq cqDma = (.ok qp, s')) :
    s'.admin.pair.grants = s.admin.pair.grants := by
  unfold registerSq at h
  simp only at h
  split at h
  · cases h
  split at h
  · cases h
  · rename_i dma s₁ hm
    obtain ⟨ha, -, -⟩ := mapHost_same hm
    split at h
    · cases h
    · rename_i sq hsome
      obtain ⟨ha', -⟩ := registerPrp_spec c (s₁.note _ _) env sq cq dma cqDma
      rw [h] at ha'
      have hop (q : NvmQueue) (ioaddr : BitVec 64) :
          (adminSqCreate q cq ioaddr false).opcode ≠ NVM_ADMIN_SET_FEATURES := by
        rw [adminSqCreate_opcode]
        decide
      rw [ha', ← ha]
      exact create_grants (by rw [ha]; exact hi) hop hsome

theorem registerQp_grants (hi : s.admin.pair.Idle) (h : registerQp c s env i = (.ok qp, s')) :
    s'.admin.pair.grants = s.admin.pair.grants := by
  unfold registerQp at h
  split at h
  · cases h
  split at h
  · cases h
  · rename_i dma s₁ hm
    obtain ⟨ha, -, -⟩ := mapHost_same hm
    simp only at h
    split at h
    · cases h
    · rename_i cq hsome
      have hi₁ : s₁.admin.pair.Idle := by rw [ha]; exact hi
      have hop (q : NvmQueue) (ioaddr : BitVec 64) :
          (adminCqCreate q ioaddr false).opcode ≠ NVM_ADMIN_SET_FEATURES := by
        rw [adminCqCreate_opcode]
        decide
      rw [registerSq_grants (create_ok hi₁ hsome).1 h, ← ha]
      exact create_grants hi₁ hop hsome

end Queues

theorem registerQps_grants (env : Nat → QpEnv) (n : Nat) {i : Nat} (hin : i + n < 2 ^ 16)
    (hi : s.admin.pair.Idle) {done qps : List IOQueuePair}
    (h : registerQps c env n i s done = (some qps, s')) :
    s'.admin.pair.grants = s.admin.pair.grants := by
  induction n generalizing i s done with
  | zero =>
    cases h
    rfl
  | succ n ih =>
    simp only [registerQps] at h
    split at h
    · cases h
    · rename_i qp s₁ hq
      obtain ⟨hi₁, -⟩ := registerQp_ok hi (by omega) hq
      rw [ih (by omega) hi₁ h, registerQp_grants hi hq]

/-- A registration that succeeds has had one answer to a Set Features command. -/
theorem registerQueues_grants {r : RegCall} {aqDma : NvmDma} {b : Built} (hi : s.admin.pair.Idle)
    (h : registerQueues c r aqDma s = some (some b, s')) :
    ∃ dw, s'.admin.pair.grants = s.admin.pair.grants ++ [dw] ∧ b.numQps = grantedQps dw := by
  unfold registerQueues at h
  split at h
  · cases h
  rename_i ioaddr _
  split at h
  · cases h
  rename_i s₁ h₁
  split at h
  · cases h
  split at h
  · cases h
  rename_i s₂ h₂
  split at h
  · cases h
  split at h
  · cases h
  rename_i n s₃ h₃
  split at h
  · cases h
  · rename_i qps s₄ h₄
    cases h
    have hop (nsId : BitVec 32) :
        (adminIdentifyNs nsId ioaddr).opcode ≠ NVM_ADMIN_SET_FEATURES := by
      rw [adminIdentifyNs_opcode]
      decide
    have hop' : (adminIdentifyCtrl ioaddr).opcode ≠ NVM_ADMIN_SET_FEATURES := hop 0
    obtain ⟨hi₁, -⟩ := identify_ok hi (fun tb => (tb.exec_identify 0 ioaddr).1) h₁
    obtain ⟨hi₂, -⟩ := identify_ok hi₁ (fun tb => (tb.exec_identify 1 ioaddr).2) h₂
    obtain ⟨hi₃, -⟩ := requestQps_ok hi₂ h₃
    obtain ⟨dw, hg, hn⟩ := requestQps_grants hi₂ h₃
    have hlt : 0 + n < 2 ^ 16 := by
      have := requestQps_le h₃
      simp only [UGDS_DEFAULT_NUM_QPS] at this
      omega
    refine ⟨dw, ?_, hn⟩
    rw [registerQps_grants r.qps n hlt hi₃ h₄, hg, identify_grants hi₁ (hop 1) h₂,
      identify_grants hi hop' h₁]

end Grants

/-! ## Registered handles -/

/-- The handle has the queue pairs that the controller granted when it was registered. -/
def HandleState.Sized (hs : HandleState) : Prop :=
  ∃ dw, hs.aq.grants = [dw] ∧ hs.numQps = grantedQps dw ∧ hs.numQps = hs.qps.length

namespace World

section Sized

variable {dev : Device} {j : Nat} {w w' : World}

theorem registerAq_sized {r : RegCall} {mapper : Mapper} {aqDma : NvmDma} {pair : Qp} {e : OpError}
    (hw : ∀ hs ∈ w.handles, hs.Sized) (hidle : pair.Idle) (hnew : pair.posted = [])
    (h : registerAq dev (2 ^ j) w r mapper aqDma pair = some (e, w')) :
    ∀ hs ∈ w'.handles, hs.Sized := by
  simp only [registerAq] at h
  split at h
  · cases h
  · cases h
    exact hw
  · rename_i b s hs
    cases h
    intro x hx
    rcases List.mem_append.mp hx with hx | hx
    · exact hw x hx
    · obtain ⟨dw, hg, hn⟩ := registerQueues_grants hidle hs
      obtain ⟨-, -, hlen, -⟩ := (registerQueues_spec hs).2 b rfl hidle
      rw [List.mem_singleton.mp hx]
      refine ⟨dw, hg.trans ?_, hn, hlen⟩
      simp [Qp.grants, enter, hnew]

theorem handleRegister_sized {r : RegCall} {e : OpError} (hw : ∀ hs ∈ w.handles, hs.Sized)
    (h : w.handleRegister dev (2 ^ j) r = some (e, w')) : ∀ hs ∈ w'.handles, hs.Sized := by
  cases registers_of_call h with
  | refused _ => exact hw
  | unmapped k dmas =>
    obtain ⟨k', log, heq⟩ := unmaps_eq { w.numbered r with k := k } r.current dmas
    rw [heq]
    exact hw
  | @reset ctrl k aqDma pair _ _ _ hctrl hpair hreg =>
    obtain ⟨acq, asq, hp, -⟩ := createAdmin_ok hpair
    have hpage : ctrl.pageSize = 2 ^ j := by rw [(nvmCtrlInit_ok hctrl).2]
    refine registerAq_sized ?_ (createAdmin_idle hpage hpair) (by rw [hp]; rfl) hreg
    exact hw

theorem io_sized {P : Nat} {env : DeviceMapEnv} {current : Task} {h : Nat} {a : IoArgs} {n : Int}
    (hw : ∀ hs ∈ w.handles, hs.Sized) (he : w.io dev P env current h a = some (n, w')) :
    ∀ hs ∈ w'.handles, hs.Sized := by
  unfold io at he
  split at he
  · cases he
  rename_i hs hf
  obtain ⟨r, hr, he⟩ := Option.map_eq_some_iff.mp he
  cases he
  have hsz : r.hs.Sized := by
    rcases doIo_cases hr with ⟨-, -, he, -⟩ | ⟨dma, fly, start, q, ret, t', pair, -, -, -, -, rfl⟩
    · rw [he]
      exact hw hs (find_mem hf).1
    · obtain ⟨dw, hg, hn, hlen⟩ := hw hs (find_mem hf).1
      exact ⟨dw, hg, hn, by simpa using hlen⟩
  intro x hx
  have hmem : x ∈ (w.setHandle r.hs).handles := by
    simp only [afterIo] at hx
    split at hx
    · exact hx
    · exact hx
  rcases mem_setHandle hmem with hx | rfl
  · exact hw x hx
  · exact hsz

/-- The admin queue pairs are idle, so the device changes nothing in them. -/
theorem act_sized {acts : List DevAct} {which : Which} (hwf : w.Wf)
    (hw : ∀ hs ∈ w.handles, hs.Sized) (h : w.act acts which = some w') :
    ∀ hs ∈ w'.handles, hs.Sized := by
  intro x hx
  cases acted_of_act h with
  | @admin id hs hf _ =>
    rcases mem_setHandle hx with hx | rfl
    · exact hw x hx
    · rw [(hwf.handles hs (find_mem hf).1).aq.foldl_devStep]
      exact hw hs (find_mem hf).1
  | @io id i hs q hf _ _ =>
    rcases mem_setHandle hx with hx | rfl
    · exact hw x hx
    · obtain ⟨dw, hg, hn, hlen⟩ := hw hs (find_mem hf).1
      exact ⟨dw, hg, hn, by simpa using hlen⟩
  | freed _ _ =>
    refine hw x ?_
    split at hx
    · exact hx
    · exact hx

theorem call_sized {l : Label} {ret : Ret} (hwf : w.Wf) (hw : ∀ hs ∈ w.handles, hs.Sized)
    (h : w.call dev (2 ^ j) l = some (ret, w')) : ∀ hs ∈ w'.handles, hs.Sized := by
  have heff := call_effect h
  cases l with
  | handleRegister r =>
    obtain ⟨⟨e, w₁⟩, hr, he⟩ := Option.map_eq_some_iff.mp h
    cases he
    exact handleRegister_sized hw hr
  | io env current id a =>
    obtain ⟨⟨n, w₁⟩, hr, he⟩ := Option.map_eq_some_iff.mp h
    cases he
    exact io_sized hw hr
  | device acts which =>
    obtain ⟨w₁, hr, he⟩ := Option.map_eq_some_iff.mp h
    cases he
    exact act_sized hwf hw hr
  | handleDeregister current id =>
    cases heff with
    | refused hl _ => exact hw
    | deregistered hf => exact fun x hx => hw x (List.mem_of_mem_filter hx)
  | _ => cases heff <;> exact hw

theorem run_sized {nCtrls : Nat} {tr : List (World × Label)}
    (hr : Run (World.step dev (2 ^ j)) (.init nCtrls) tr w) : ∀ hs ∈ w.handles, hs.Sized := by
  refine (Run.inv (fun w => w.Wf ∧ ∀ hs ∈ w.handles, hs.Sized) (fun _ _ => True)
    (fun w₁ l w₂ hi _ hs => ?_) hr ⟨wf_init nCtrls, by simp [init]⟩ (by simp)).1.2
  obtain ⟨⟨ret, w₃⟩, hc, he⟩ := Option.map_eq_some_iff.mp hs
  cases he
  exact ⟨hi.1.effect (call_effect hc), call_sized hi.1 hi.2 hc⟩

end Sized

end World

/-- Whatever `rr_counter` is, a transfer on the handle does not divide by 0 and finds a queue
pair. -/
structure HandleState.Serves (hs : HandleState) : Prop where
  num_pos : 1 ≤ hs.numQps
  num_eq : hs.numQps = hs.qps.length
  num_le : hs.numQps ≤ 16
  finds : ∀ rr < 2 ^ 32, ∃ qp, hs.qps[({ hs with rrCounter := rr } : HandleState).qpIdx]? = some qp

theorem HandleState.serves_iff {hs : HandleState} {dw : BitVec 32}
    (hn : hs.numQps = grantedQps dw) (hlen : hs.numQps = hs.qps.length) :
    hs.Serves ↔ 1 ≤ grantedQps dw := by
  refine ⟨fun h => hn ▸ h.num_pos, fun h => ?_⟩
  have hle : hs.numQps ≤ 16 := by
    rw [hn]
    exact Nat.min_le_right _ _
  refine ⟨by omega, hlen, hle, fun rr _ => ?_⟩
  have hpos : 0 < ({ hs with rrCounter := rr } : HandleState).numQps := by simp only; omega
  obtain ⟨qp, -, hqp⟩ := HandleState.exists_next hpos (by simp only; omega) hlen
  exact ⟨qp, hqp⟩

/-- In every state that the library can reach, a registered handle has had one answer `dw` to its
request for queues, and it can serve transfers exactly if no half of `dw` was `0xffff`. -/
theorem handle_serves {dev : Device} {j nCtrls : Nat} {tr : List (World × Label)} {w : World}
    (hr : Run (World.step dev (2 ^ j)) (.init nCtrls) tr w) {hs : HandleState}
    (hmem : hs ∈ w.handles) :
    ∃ dw, hs.aq.grants = [dw] ∧
      (hs.Serves ↔ dw.toNat % 2 ^ 16 ≠ 0xffff ∧ dw.toNat / 2 ^ 16 ≠ 0xffff) := by
  obtain ⟨dw, hg, hn, hlen⟩ := World.run_sized hr hs hmem
  exact ⟨dw, hg, (HandleState.serves_iff hn hlen).trans (grantedQps_pos_iff dw)⟩

/-- A controller that grants one queue of each kind: its answer is 0. -/
theorem handle_serves_one :
    ∃ tr w hs, Run (World.step .prompt (2 ^ 12)) (.init 1) tr w ∧ hs ∈ w.handles ∧
      hs.aq.grants = [0#32] ∧ hs.Serves := by
  obtain ⟨tr, w, hrun, -, hw⟩ := follow_run (World.step .prompt (2 ^ 12)) (fun _ _ => true) (.init 1)
    [.driverOpen, .handleRegister (.ok 0)]
    (fun w => w.handles.any fun hs => hs.aq.grants = [0#32]) (by decide +kernel)
  obtain ⟨hs, hmem, hg⟩ := List.any_eq_true.mp hw
  obtain ⟨dw, hg', hiff⟩ := handle_serves hrun hmem
  rw [of_decide_eq_true hg] at hg'
  cases hg'
  exact ⟨tr, w, hs, hrun, hmem, of_decide_eq_true hg, hiff.mpr (by decide)⟩

/-- A controller that completes a command before each poll, with all ones in DWORD0. -/
def onesDevice : Device := fun _ _ =>
  [.fetch, .complete 0 ⟨fun i => if i = 0 then 0xffffffff#32 else 0#32⟩]

/-- The counts become 0, and the registration succeeds without queue pairs. -/
theorem handle_without_queues :
    ¬ ∀ (dev : Device) (j nCtrls : Nat) (tr : List (World × Label)) (w : World),
      Run (World.step dev (2 ^ j)) (.init nCtrls) tr w → ∀ hs ∈ w.handles, hs.Serves := by
  intro h
  obtain ⟨tr, w, hrun, -, hw⟩ := follow_run (World.step onesDevice (2 ^ 12)) (fun _ _ => true)
    (.init 1) [.driverOpen, .handleRegister (.ok 0)]
    (fun w => w.handles.any fun hs => hs.numQps = 0) (by decide +kernel)
  obtain ⟨hs, hmem, hn⟩ := List.any_eq_true.mp hw
  have hpos := (h onesDevice 12 1 tr w hrun hs hmem).num_pos
  rw [of_decide_eq_true hn] at hpos
  exact absurd hpos (by decide)

end UGDS
