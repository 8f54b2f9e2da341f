import UGDS.Api.QueuePairs

/-!
# UGDS.Api.Register

The part of `uGDSHandleRegister` (`ugds_handle.cpp`) that talks to the controller: the admin queue
pair of `nvm_aq_create`, the Identify commands, the number of queues, and the queue pairs.

* `registerQueues_spec`: succeeding or failing, it releases memory safely as long as the log is
  clean; when it succeeds, the controller's table holds the new queue pairs.
-/

namespace UGDS

open Nvm Lib Drv

/-- What `nvm_aq_create` meets: the allocations of the reference, of the copy of the handle and of
the descriptor, and the readings of `CSTS.RDY`. -/
structure AqEnv where
  ref : Bool
  remap : Bool
  admin : Bool
  rdy : Nat → Bool

/-- The arguments of `uGDSHandleRegister` and what it meets. `device` is the device behind the file
descriptor, `openErr` an error of `nvm_ctrl_init` before `_nvm_ctrl_init`; `mdts` and `lbads` are
what the Identify pages hold. -/
structure RegCall where
  current : Task
  device : Nat
  fhNull : Bool
  descrNull : Bool
  opaqueFd : Bool
  fd : Nat
  openErr : Option Errno
  alloc : Bool
  cap : BitVec 64
  aqBuf : Option Nat
  aqMap : HostMapEnv
  aq : AqEnv
  mdts : Nat
  lbads : Nat
  qps : Nat → QpEnv

/-- `nvm_aq_create` up to the reset: the admin queue pair, or the error and whether the copy of the
handle had been made and was unmapped again. The results of `nvm_queue_clear` are ignored, so a
refusal leaves a queue that is not initialised. -/
def createAdmin (ctrl : NvmCtrl) (env : AqEnv) (window : NvmDma) :
    Option (Except (Errno × Bool) Qp) :=
  if !env.ref then some (.error (.ENOMEM, false))
  else if ctrl.pageSize ≠ window.pageSize then some (.error (.EINVAL, false))
  else if window.nIoaddrs < 2 then some (.error (.ERANGE, false))
  else if window.vaddr = 0 then some (.error (.EINVAL, false))
  else if !env.remap then some (.error (.ENOMEM, false))
  else if !env.admin then some (.error (.ENOMEM, true))
  else
    match nvmQueueClear ctrl true 0 (ctrl.pageSize / 16) window.isLocal window.vaddr
        (window.ioaddrs.getD 0 0#64),
      nvmQueueClear ctrl false 0 (ctrl.pageSize / 64) window.isLocal
        (u64 (window.vaddr + window.pageSize)) (window.ioaddrs.getD 1 0#64) with
    | .ok acq, .ok asq => some (.ok (.create asq acq 0))
    | _, _ => none

/-- `(1UL << bytes[77]) * (1UL << (12 + CAP$MPSMIN))`. -/
def maxDataSize (cap : BitVec 64) (mdts : Nat) : Option Nat :=
  if mdts < 64 then some (u64 (2 ^ mdts * 2 ^ (12 + capMpsMin cap))) else none

/-- `1 << _RB(lba_format, 23, 16)`, an `int` that becomes a `size_t`. -/
def lbaDataSize (lbads : Nat) : Option Nat :=
  if lbads < 31 then some (2 ^ lbads)
  else if lbads = 31 then some (2 ^ 64 - 2 ^ 31)
  else none

/-- `nvm_admin_ctrl_info` and `nvm_admin_ns_info`: whether it succeeded. -/
def identify (c : Ctx) (s : Sess) (ioaddr : BitVec 64) (cmd : NvmCmd) : Bool × Sess :=
  let x := nvmAdminIdentify c.dev c.mapper.ctrl.timeout s.admin ioaddr cmd
  (x.1 = 0, s.note x.2 x.1)

/-- `nvm_admin_request_num_queues` and `num_qps`. -/
def requestQps (c : Ctx) (s : Sess) : Option Nat × Sess :=
  let n := UGDS_DEFAULT_NUM_QPS
  let x := nvmAdminRequestNumQueues c.dev c.mapper.ctrl.timeout s.admin n n
  (if x.1 = 0 then some (min (min x.2.1 x.2.2.1) n) else none, s.note x.2.2.2 x.1)

/-- `nvm_aq_destroy`, which unmaps the copy of the handle, and `nvm_dma_unmap(hs->aq_dma)`. The copy
has the addresses of the handle. -/
def closeAq (c : Ctx) (s : Sess) (aqDma : NvmDma) : Sess :=
  (s.unmap c aqDma none false).unmap c aqDma none true

/-- What the admin commands of a registration yield. -/
structure Built where
  blockSize : Nat
  maxTransferSize : Nat
  numQps : Nat
  qps : List IOQueuePair

/-- `uGDSHandleRegister` from `nvm_admin_ctrl_info` on. -/
def registerQueues (c : Ctx) (r : RegCall) (aqDma : NvmDma) (s : Sess) :
    Option (Option Built × Sess) :=
  match aqDma.ioaddrs[2]? with
  | none => none
  | some ioaddr =>
    match identify c s ioaddr (adminIdentifyCtrl ioaddr) with
    | (false, s) => some (none, closeAq c s aqDma)
    | (true, s) =>
      match maxDataSize r.cap r.mdts with
      | none => none
      | some maxTransferSize =>
        match identify c s ioaddr (adminIdentifyNs 1 ioaddr) with
        | (false, s) => some (none, closeAq c s aqDma)
        | (true, s) =>
          match lbaDataSize r.lbads with
          | none => none
          | some blockSize =>
            match requestQps c s with
            | (none, s) => some (none, closeAq c s aqDma)
            | (some n, s) =>
              match registerQps c r.qps n 0 s [] with
              | (none, s) => some (none, closeAq c s aqDma)
              | (some qps, s) => some (some ⟨blockSize, maxTransferSize, n, qps⟩, s)

/-- Where the block size and the transfer limit come from. -/
theorem registerQueues_sizes {c : Ctx} {r : RegCall} {aqDma : NvmDma} {b : Built} {s s' : Sess}
    (h : registerQueues c r aqDma s = some (some b, s')) :
    maxDataSize r.cap r.mdts = some b.maxTransferSize ∧ lbaDataSize r.lbads = some b.blockSize := by
  unfold registerQueues at h
  split at h
  · cases h
  split at h
  · cases h
  split at h
  · cases h
  split at h
  · cases h
  split at h
  · cases h
  split at h
  · cases h
  split at h
  · cases h
  · cases h
    exact ⟨‹_›, ‹_›⟩

/-- The admin pair, when there is one, has the two queues as cleared. -/
theorem createAdmin_ok {ctrl : NvmCtrl} {env : AqEnv} {window : NvmDma} {pair : Qp}
    (h : createAdmin ctrl env window = some (.ok pair)) :
    ∃ acq asq, pair = .create asq acq 0 ∧
      nvmQueueClear ctrl true 0 (ctrl.pageSize / 16) window.isLocal window.vaddr
        (window.ioaddrs.getD 0 0#64) = .ok acq ∧
      nvmQueueClear ctrl false 0 (ctrl.pageSize / 64) window.isLocal
        (u64 (window.vaddr + window.pageSize)) (window.ioaddrs.getD 1 0#64) = .ok asq := by
  unfold createAdmin at h
  split at h
  · cases h
  split at h
  · cases h
  split at h
  · cases h
  split at h
  · cases h
  split at h
  · cases h
  split at h
  · cases h
  split at h
  · rename_i acq asq hcq hsq
    cases h
    exact ⟨acq, asq, rfl, hcq, hsq⟩
  · cases h

/-- The admin pair starts with nothing outstanding, when the page size is a power of two. -/
theorem createAdmin_idle {j : Nat} {ctrl : NvmCtrl} (hpage : ctrl.pageSize = 2 ^ j) {env : AqEnv}
    {window : NvmDma} {pair : Qp} (h : createAdmin ctrl env window = some (.ok pair)) :
    pair.Idle := by
  obtain ⟨acq, asq, rfl, hcq, hsq⟩ := createAdmin_ok h
  -- the submission queue has `2 ^ (j - 6)` entries, and at least two
  have hqs : 2 ≤ ctrl.pageSize / 64 ∧ ctrl.pageSize / 64 ≤ 2 ^ 16 := by
    obtain ⟨⟨hge, hle, -⟩, -⟩ := nvmQueueClear_ok hsq
    exact ⟨hge, hle⟩
  rw [hpage] at hqs hsq
  have hj : 7 ≤ j := by
    by_contra hn
    have : 2 ^ j ≤ 2 ^ 6 := Nat.pow_le_pow_right (by decide) (by omega)
    omega
  have hdiv : 2 ^ j / 64 = 2 ^ (j - 6) := Nat.pow_div (by omega : 6 ≤ j) (by decide)
  rw [hdiv] at hsq hqs
  have hk : j - 6 ≤ 16 := (Nat.pow_le_pow_iff_right (by decide)).mp hqs.2
  exact Qp.Inv.create (by omega) hk hsq hcq

theorem createAdmin_depth {ctrl : NvmCtrl} {env : AqEnv} {window : NvmDma} {pair : Qp}
    (h : createAdmin ctrl env window = some (.ok pair)) : pair.sq.q.qs = ctrl.pageSize / 64 := by
  obtain ⟨acq, asq, rfl, -, hsq⟩ := createAdmin_ok h
  obtain ⟨-, rfl⟩ := nvmQueueClear_ok hsq
  rfl

/-! ## Safety of the log -/

section Leads

variable {c : Ctx} {pre : Prop} {s s' : Sess}

theorem closeAq_leads (s : Sess) (aqDma : NvmDma) : Leads c pre s (closeAq c s aqDma) :=
  unmap_plain_leads.trans unmap_plain_leads

/-- An Identify command that succeeded has left the controller's queues as they were. -/
theorem identify_ok {ioaddr : BitVec 64} {cmd : NvmCmd} (hi : s.admin.pair.Idle)
    (hcmd : ∀ tb : QTable, tb.exec cmd = tb) (h : identify c s ioaddr cmd = (true, s')) :
    s'.admin.pair.Idle ∧ s'.table = s.table := by
  have hcall := nvmAdminIdentify_called c.dev hi c.mapper.ctrl.timeout ioaddr cmd
  simp only [identify, Prod.mk.injEq, decide_eq_true_eq] at h
  obtain ⟨h0, rfl⟩ := h
  refine ⟨hcall.idle hi ?_, ?_⟩
  · rw [h0]
    decide
  · exact (hcall.table s.table).trans (by rw [if_pos h0, hcmd])

theorem identify_not_silent {ioaddr : BitVec 64} {cmd : NvmCmd} (hi : s.admin.pair.Idle)
    (h : identify c s ioaddr cmd = (true, s')) : c.dev ≠ .silent := by
  intro hdev
  simp only [identify, Prod.mk.injEq, decide_eq_true_eq, hdev] at h
  exact nvmAdminIdentify_silent hi _ _ _ h.1

theorem requestQps_le {n : Nat} (h : requestQps c s = (some n, s')) : n ≤ UGDS_DEFAULT_NUM_QPS := by
  simp only [requestQps, Prod.mk.injEq] at h
  obtain ⟨h0, -⟩ := h
  split at h0
  · cases h0
    exact Nat.min_le_right _ _
  · cases h0

theorem requestQps_ok {n : Nat} (hi : s.admin.pair.Idle) (h : requestQps c s = (some n, s')) :
    s'.admin.pair.Idle ∧ s'.table = s.table := by
  have hcall := nvmAdminRequestNumQueues_called c.dev hi c.mapper.ctrl.timeout UGDS_DEFAULT_NUM_QPS
    UGDS_DEFAULT_NUM_QPS
  simp only [requestQps, Prod.mk.injEq] at h
  obtain ⟨h0, rfl⟩ := h
  split at h0
  · rename_i hr
    cases h0
    refine ⟨hcall.idle hi ?_, ?_⟩
    · rw [hr]
      decide
    · exact (hcall.table s.table).trans (by rw [if_pos hr, QTable.exec_setNumQueues])
  · cases h0

theorem identify_leads {ioaddr : BitVec 64} {cmd : NvmCmd} {b : Bool}
    (h : identify c s ioaddr cmd = (b, s')) : Leads c pre s s' := by
  cases h
  exact note_leads fun hi => ⟨cmd, nvmAdminIdentify_called c.dev hi _ ioaddr cmd⟩

theorem requestQps_leads {o : Option Nat} (h : requestQps c s = (o, s')) : Leads c pre s s' := by
  cases h
  exact note_leads fun hi => ⟨_, nvmAdminRequestNumQueues_called c.dev hi _ _ _⟩

/-- Failing or succeeding, a registration releases memory safely when the controller has no I/O
queues. When it succeeds, the device has answered, the admin pair is idle, and the controller has
the new queue pairs. -/
theorem registerQueues_spec {r : RegCall} {aqDma : NvmDma} {o : Option Built}
    (h : registerQueues c r aqDma s = some (o, s')) :
    Leads c (s.table.FreeAbove 0) s s' ∧
      ∀ b, o = some b → s.admin.pair.Idle →
        c.dev ≠ .silent ∧ s'.admin.pair.Idle ∧ b.numQps = b.qps.length ∧
          ∀ (i : Nat) qp, b.qps[i]? = some qp → QpBound s'.table i qp := by
  unfold registerQueues at h
  split at h
  · cases h
  rename_i ioaddr _
  split at h
  · rename_i s₁ h₁
    cases h
    exact ⟨(identify_leads h₁).trans (closeAq_leads _ _), fun b hb => by cases hb⟩
  rename_i s₁ h₁
  split at h
  · cases h
  split at h
  · rename_i s₂ h₂
    cases h
    exact ⟨((identify_leads h₁).trans (identify_leads h₂)).trans (closeAq_leads _ _),
      fun b hb => by cases hb⟩
  rename_i s₂ h₂
  split at h
  · cases h
  have hl₂ : Leads c (s.table.FreeAbove 0) s s₂ := (identify_leads h₁).trans (identify_leads h₂)
  have hident (hi : s.admin.pair.Idle) : s₂.admin.pair.Idle ∧ s₂.table = s.table := by
    obtain ⟨hi₁, ht₁⟩ := identify_ok hi (fun tb => (tb.exec_identify 0 ioaddr).1) h₁
    obtain ⟨hi₂, ht₂⟩ := identify_ok hi₁ (fun tb => (tb.exec_identify 1 ioaddr).2) h₂
    exact ⟨hi₂, ht₂.trans ht₁⟩
  split at h
  · rename_i s₃ h₃
    cases h
    exact ⟨(hl₂.trans (requestQps_leads h₃)).trans (closeAq_leads _ _), fun b hb => by cases hb⟩
  rename_i n s₃ h₃
  have hn : 0 + n < 2 ^ 16 := by
    have := requestQps_le h₃
    simp only [UGDS_DEFAULT_NUM_QPS] at this
    omega
  have hl₃ : Leads c (s.table.FreeAbove 0) s (registerQps c r.qps n 0 s₃ []).2 := by
    refine (hl₂.trans (requestQps_leads h₃)).bind (registerQps_leads r.qps n hn s₃ [])
      fun hfree hg _ => ?_
    obtain ⟨hi₂, ht₂⟩ := hident hg.idle
    rw [(requestQps_ok hi₂ h₃).2, ht₂]
    exact hfree
  split at h
  · rename_i s₄ h₄
    cases h
    rw [h₄] at hl₃
    exact ⟨hl₃.trans (closeAq_leads _ _), fun b hb => by cases hb⟩
  · rename_i qps s₄ h₄
    cases h
    rw [h₄] at hl₃
    refine ⟨hl₃, fun b hb hi => ?_⟩
    cases hb
    obtain ⟨hi₃, -⟩ := requestQps_ok (hident hi).1 h₃
    obtain ⟨hi₄, -, hlen, hb⟩ := registerQps_ok r.qps n hn hi₃ rfl (fun j qp hj => by simp at hj) h₄
    exact ⟨identify_not_silent hi h₁, hi₄, by simp [hlen], hb⟩

end Leads

end UGDS
