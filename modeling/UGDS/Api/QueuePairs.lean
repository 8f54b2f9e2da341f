import UGDS.Api.Session

/-!
# UGDS.Api.QueuePairs

Building and tearing down the queue pairs of a handle: the loop of `uGDSHandleRegister` and
`cleanup_qp` (`ugds_handle.cpp`).

* `cleanupQps_leads`: taking queue pairs down releases memory safely as long as the log is clean.
* `registerQps_leads`: so does the loop, failing or not.
* `registerQps_ok`: when the loop gets through, the controller's table holds the memory of every new
  queue pair.
-/

namespace UGDS

open Nvm Lib Drv

def UGDS_DEFAULT_NUM_QPS : Nat := 16
def UGDS_DEFAULT_QUEUE_DEPTH : Nat := 64

/-- A zeroed `nvm_queue_t`. -/
def Nvm.NvmQueue.zero : NvmQueue := ⟨0, 0, 0, 0, 0, 0, false, false, none, 0, 0⟩

/-- `std::make_unique<IOQueuePair>()`. -/
def IOQueuePair.zero : IOQueuePair := ⟨.create .zero .zero 0, none, none, none⟩

/-- The first part of `cleanup_qp`. -/
def cleanupSq (c : Ctx) (s : Sess) (qp : IOQueuePair) : Sess :=
  match qp.sqDma with
  | none => s
  | some dma =>
    let sq := qp.pair.sq.q
    let x := nvmAdminSqDelete c.dev c.mapper.ctrl.timeout s.admin sq qp.pair.cq.q
    (s.noteDelete x.2.2 x.1).unmap c dma (some (.sq (u16 sq.no))) true

def cleanupCq (c : Ctx) (s : Sess) (qp : IOQueuePair) : Sess :=
  match qp.cqDma with
  | none => s
  | some dma =>
    let cq := qp.pair.cq.q
    let x := nvmAdminCqDelete c.dev c.mapper.ctrl.timeout s.admin cq
    (s.noteDelete x.2.2 x.1).unmap c dma (some (.cq (u16 cq.no))) true

def cleanupPrp (c : Ctx) (s : Sess) (qp : IOQueuePair) : Sess :=
  match qp.prpDma with
  | none => s
  | some dma => s.unmap c dma none true

/-- `cleanup_qp`. The results of the deletions are ignored. -/
def cleanupQp (c : Ctx) (s : Sess) (qp : IOQueuePair) : Sess :=
  cleanupPrp c (cleanupCq c (cleanupSq c s qp) qp) qp

/-- What building a queue pair meets: the three buffers (`none` when `posix_memalign` fails) and
their mappings. -/
structure QpEnv where
  cqBuf : Option Nat
  cqMap : HostMapEnv
  sqBuf : Option Nat
  sqMap : HostMapEnv
  prpBuf : Option Nat
  prpMap : HostMapEnv

/-- The PRP list page of queue pair `i`, the last part of the loop's body. `.error` is `goto fail`
with what has been built so far. -/
def registerPrp (c : Ctx) (s : Sess) (env : QpEnv) (sq cq : NvmQueue) (sqDma cqDma : NvmDma) :
    Except IOQueuePair IOQueuePair × Sess :=
  let qp : IOQueuePair := ⟨.create sq cq 0, some sqDma, some cqDma, none⟩
  match env.prpBuf with
  | none => (.error qp, s)
  | some buf =>
    match s.mapHost c env.prpMap buf c.mapper.ctrl.pageSize with
    | (.error _, s) => (.error qp, s)
    | (.ok dma, s) => (.ok ⟨.create sq cq dma.base, some sqDma, some cqDma, some dma⟩, s)

/-- The SQ of queue pair `i`. -/
def registerSq (c : Ctx) (s : Sess) (env : QpEnv) (i : Nat) (cq : NvmQueue) (cqDma : NvmDma) :
    Except IOQueuePair IOQueuePair × Sess :=
  let qp : IOQueuePair := ⟨.create .zero cq 0, none, some cqDma, none⟩
  match env.sqBuf with
  | none => (.error qp, s)
  | some buf =>
    match s.mapHost c env.sqMap buf c.mapper.ctrl.pageSize with
    | (.error _, s) => (.error qp, s)
    | (.ok dma, s) =>
      let x := nvmAdminSqCreate c.dev c.mapper.ctrl s.admin cq (i + 1) dma 0
        UGDS_DEFAULT_QUEUE_DEPTH false
      let s := s.note x.2.2 x.1
      match x.2.1 with
      | none => (.error qp, s.unmap c dma (some (.sq (i + 1))) true)
      | some sq => registerPrp c s env sq cq dma cqDma

/-- The body of the loop for queue pair `i`, from its CQ on. -/
def registerQp (c : Ctx) (s : Sess) (env : QpEnv) (i : Nat) :
    Except IOQueuePair IOQueuePair × Sess :=
  match env.cqBuf with
  | none => (.error .zero, s)
  | some buf =>
    match s.mapHost c env.cqMap buf c.mapper.ctrl.pageSize with
    | (.error _, s) => (.error .zero, s)
    | (.ok dma, s) =>
      let x := nvmAdminCqCreate c.dev c.mapper.ctrl s.admin (i + 1) dma 0
        UGDS_DEFAULT_QUEUE_DEPTH false
      let s := s.note x.2.2 x.1
      match x.2.1 with
      | none => (.error .zero, s.unmap c dma (some (.cq (i + 1))) true)
      | some cq => registerSq c s env i cq dma

/-- The loop, with `n` queue pairs to go from number `i` on. On failure everything built so far is
taken down again, the unfinished pair first. -/
def registerQps (c : Ctx) (env : Nat → QpEnv) :
    (n i : Nat) → Sess → List IOQueuePair → Option (List IOQueuePair) × Sess
  | 0, _, s, done => (some done, s)
  | n + 1, i, s, done =>
    match registerQp c s (env i) i with
    | (.error qp, s) => (none, done.foldl (cleanupQp c) (cleanupQp c s qp))
    | (.ok qp, s) => registerQps c env n (i + 1) s (done ++ [qp])

/-! ## Taking down -/

section Cleanup

variable {c : Ctx} {pre : Prop}

theorem cleanupQp_leads (s : Sess) (qp : IOQueuePair) : Leads c pre s (cleanupQp c s qp) := by
  have hsq : Leads c pre s (cleanupSq c s qp) := by
    unfold cleanupSq
    cases qp.sqDma with
    | none => exact .refl s
    | some dma =>
      exact delete_unmap_leads (fun hi => nvmAdminSqDelete_called c.dev hi _ _ _)
        fun tb => by simp [QueueMem.bound, QTable.exec_sqDelete]
  have hcq (s : Sess) : Leads c True s (cleanupCq c s qp) := by
    unfold cleanupCq
    cases qp.cqDma with
    | none => exact .refl s
    | some dma =>
      exact delete_unmap_leads (fun hi => nvmAdminCqDelete_called c.dev hi _ _)
        fun tb => by simp [QueueMem.bound, QTable.exec_cqDelete]
  have hprp (s : Sess) : Leads c True s (cleanupPrp c s qp) := by
    unfold cleanupPrp
    cases qp.prpDma with
    | none => exact .refl s
    | some dma => exact unmap_plain_leads
  exact (hsq.trans (hcq _)).trans (hprp _)

theorem cleanupQps_leads (qps : List IOQueuePair) (s : Sess) :
    Leads c pre s (qps.foldl (cleanupQp c) s) := by
  induction qps generalizing s pre with
  | nil => exact .refl s
  | cons qp qps ih => exact (cleanupQp_leads s qp).trans (ih _)

end Cleanup

/-! ## Building queue pairs -/

/-- The controller has the queues of `qp` under number `i + 1`, at the memory that the handle has
for them, and nothing is outstanding on them. -/
structure QpBound (tb : QTable) (i : Nat) (qp : IOQueuePair) : Prop where
  sq : ∃ d, qp.sqDma = some d ∧ qp.pair.sq.q.ioaddr = d.base ∧ tb.sqs (i + 1) = some d.base
  cq : ∃ d, qp.cqDma = some d ∧ qp.pair.cq.q.ioaddr = d.base ∧ tb.cqs (i + 1) = some d.base
  sq_no : qp.pair.sq.q.no = i + 1
  cq_no : qp.pair.cq.q.no = i + 1
  idle : qp.pair.Idle

section Register

variable {c : Ctx} {s s' : Sess} {env : QpEnv} {i : Nat} {qp : IOQueuePair}

theorem nvmQueueClear_fields {ctrl : NvmCtrl} {cq loc : Bool} {no qs v : Nat} {a : BitVec 64}
    {q : NvmQueue} (h : nvmQueueClear ctrl cq no qs loc v a = .ok q) : q.no = no ∧ q.ioaddr = a := by
  obtain ⟨-, rfl⟩ := nvmQueueClear_ok h
  exact ⟨rfl, rfl⟩

/-- A queue of the default depth that was created: the session afterwards. -/
theorem create_ok {isCq : Bool} {id : Nat} {dma : NvmDma}
    {build : NvmQueue → BitVec 64 → NvmCmd} {q : NvmQueue} (hi : s.admin.pair.Idle)
    (h : (nvmAdminQueueCreate c.dev c.mapper.ctrl s.admin isCq id dma 0 UGDS_DEFAULT_QUEUE_DEPTH
      build).2.1 = some q) :
    let x := nvmAdminQueueCreate c.dev c.mapper.ctrl s.admin isCq id dma 0 UGDS_DEFAULT_QUEUE_DEPTH
      build
    (s.note x.2.2 x.1).admin.pair.Idle ∧ (s.note x.2.2 x.1).log = s.log ∧
      (s.note x.2.2 x.1).table = s.table.exec (build q dma.base) ∧
      ∃ loc v, nvmQueueClear c.mapper.ctrl isCq id (2 ^ 6) loc v dma.base = .ok q := by
  intro x
  obtain ⟨cmd, hcall, ⟨-, hn⟩ | ⟨hr, q', hq', hck, rfl⟩⟩ := nvmAdminQueueCreate_called c.dev hi
    c.mapper.ctrl isCq id dma 0 UGDS_DEFAULT_QUEUE_DEPTH build
  · rw [hn] at h
    cases h
  · rw [hq'] at h
    cases h
    have ht : x.1 ≠ Errno.ETIME.code := by
      intro he
      exact absurd (hr.symm.trans he) (by decide)
    have htb := hcall.table s.table
    rw [if_pos hr] at htb
    obtain ⟨-, v, hcl⟩ := nvmQueueCheck_ok (by decide) hck
    exact ⟨hcall.idle hi ht, if_neg ht, htb, _, v, hcl⟩

theorem create_none {isCq : Bool} {id : Nat} {dma : NvmDma}
    {build : NvmQueue → BitVec 64 → NvmCmd}
    (h : (nvmAdminQueueCreate c.dev c.mapper.ctrl s.admin isCq id dma 0 UGDS_DEFAULT_QUEUE_DEPTH
      build).2.1 = none) (hi : s.admin.pair.Idle) :
    let x := nvmAdminQueueCreate c.dev c.mapper.ctrl s.admin isCq id dma 0 UGDS_DEFAULT_QUEUE_DEPTH
      build
    (∃ cmd, Called s.admin x.2.2 cmd x.1) ∧ x.1 ≠ 0 := by
  intro x
  obtain ⟨cmd, hcall, ⟨hr, -⟩ | ⟨-, q', hq', -⟩⟩ := nvmAdminQueueCreate_called c.dev hi
    c.mapper.ctrl isCq id dma 0 UGDS_DEFAULT_QUEUE_DEPTH build
  · exact ⟨⟨cmd, hcall⟩, hr⟩
  · rw [hq'] at h
    cases h

theorem registerPrp_spec (c : Ctx) (s : Sess) (env : QpEnv) (sq cq : NvmQueue)
    (sqDma cqDma : NvmDma) :
    let x := registerPrp c s env sq cq sqDma cqDma
    x.2.admin = s.admin ∧ x.2.table = s.table ∧ x.2.log = s.log ∧
      ∀ qp, x.1 = .ok qp →
        qp.sqDma = some sqDma ∧ qp.cqDma = some cqDma ∧ ∃ a, qp.pair = .create sq cq a := by
  simp only [registerPrp]
  split
  · exact ⟨rfl, rfl, rfl, fun qp h => by cases h⟩
  · split
    · rename_i hm
      obtain ⟨ha, ht, hl⟩ := mapHost_same hm
      exact ⟨ha, ht, hl, fun qp h => by cases h⟩
    · rename_i hm
      obtain ⟨ha, ht, hl⟩ := mapHost_same hm
      exact ⟨ha, ht, hl, fun qp h => by cases h; exact ⟨rfl, rfl, _, rfl⟩⟩

theorem registerSq_leads (s : Sess) (env : QpEnv) (i : Nat) (cq : NvmQueue) (cqDma : NvmDma) :
    Leads c (s.table.sqs (i + 1) = none) s (registerSq c s env i cq cqDma).2 := by
  unfold registerSq
  simp only
  split
  · exact .refl s
  split
  · rename_i hm
    obtain ⟨ha, -, hl⟩ := mapHost_same hm
    exact .of_eq ha hl
  · rename_i dma s₁ hm
    obtain ⟨ha, ht, hl⟩ := mapHost_same hm
    split
    · rename_i hnone
      exact (Leads.of_eq ha hl).bind (create_unmap_leads (create_none hnone)) fun hfree _ _ => by
        rw [QueueMem.bound, ht]
        exact hfree
    · rename_i sq hsome
      obtain ⟨ha', -, hl', -⟩ := registerPrp_spec c _ env sq cq dma cqDma
      refine ((Leads.of_eq ha hl).trans (note_leads fun hi => ?_)).trans (.of_eq ha' hl')
      obtain ⟨cmd, hcall, -⟩ := nvmAdminQueueCreate_called c.dev hi c.mapper.ctrl false (i + 1) dma 0
        UGDS_DEFAULT_QUEUE_DEPTH fun q ioaddr => adminSqCreate q cq ioaddr false
      exact ⟨cmd, hcall⟩

theorem registerSq_ok {cq : NvmQueue} {cqDma : NvmDma} (hi : s.admin.pair.Idle)
    (hid : i + 1 < 2 ^ 16) (h : registerSq c s env i cq cqDma = (.ok qp, s')) :
    s'.admin.pair.Idle ∧ s'.log = s.log ∧ qp.cqDma = some cqDma ∧
      ∃ sq dma a loc v, qp.sqDma = some dma ∧ qp.pair = .create sq cq a ∧
        nvmQueueClear c.mapper.ctrl false (i + 1) (2 ^ 6) loc v dma.base = .ok sq ∧
        s'.table = { s.table with sqs := Function.update s.table.sqs (i + 1) (some dma.base) } := by
  unfold registerSq at h
  simp only at h
  split at h
  · cases h
  split at h
  · cases h
  · rename_i dma s₁ hm
    obtain ⟨ha, ht, hl⟩ := mapHost_same hm
    split at h
    · cases h
    · rename_i sq hsome
      have hi₁ : s₁.admin.pair.Idle := by rw [ha]; exact hi
      obtain ⟨hidle, hlog, htab, loc, v, hcl⟩ := create_ok hi₁ hsome
      obtain ⟨ha', ht', hl', hqp⟩ := registerPrp_spec c (s₁.note _ _) env sq cq dma cqDma
      rw [h] at ha' ht' hl' hqp
      obtain ⟨hs, hc, a, hp⟩ := hqp qp rfl
      refine ⟨by rw [ha']; exact hidle, by rw [hl', ← hl]; exact hlog, hc, sq, dma, a, loc, v, hs, hp,
        hcl, ?_⟩
      rw [ht']
      refine htab.trans ?_
      rw [QTable.exec_sqCreate, (nvmQueueClear_fields hcl).1, u16, Nat.mod_eq_of_lt hid, ht]

theorem registerQp_leads (s : Sess) (env : QpEnv) (i : Nat) :
    Leads c (s.table.sqs (i + 1) = none ∧ s.table.cqs (i + 1) = none) s
      (registerQp c s env i).2 := by
  unfold registerQp
  split
  · exact .refl s
  split
  · rename_i hm
    obtain ⟨ha, -, hl⟩ := mapHost_same hm
    exact .of_eq ha hl
  · rename_i dma s₁ hm
    obtain ⟨ha, ht, hl⟩ := mapHost_same hm
    simp only
    split
    · rename_i hnone
      exact (Leads.of_eq ha hl).bind (create_unmap_leads (create_none hnone)) fun hfree _ _ => by
        rw [QueueMem.bound, ht]
        exact hfree.2
    · rename_i cq hsome
      refine ((Leads.of_eq ha hl).trans (note_leads fun hi => ?_)).bind
        (registerSq_leads _ env i cq dma) fun hfree hg _ => ?_
      · obtain ⟨cmd, hcall, -⟩ := nvmAdminQueueCreate_called c.dev hi c.mapper.ctrl true (i + 1) dma
          0 UGDS_DEFAULT_QUEUE_DEPTH fun q ioaddr => adminCqCreate q ioaddr false
        exact ⟨cmd, hcall⟩
      · -- creating the completion queue leaves the submission queues as they are
        have hi₁ : s₁.admin.pair.Idle := by rw [ha]; exact hg.idle
        obtain ⟨-, -, htab, -⟩ := create_ok hi₁ hsome
        refine (congrFun (congrArg QTable.sqs htab) (i + 1)).trans ?_
        rw [QTable.exec_cqCreate, ht]
        exact hfree.1

/-- A queue pair that was built is the controller's pair number `i + 1`. -/
theorem registerQp_ok (hi : s.admin.pair.Idle) (hid : i + 1 < 2 ^ 16)
    (h : registerQp c s env i = (.ok qp, s')) :
    s'.admin.pair.Idle ∧ s'.log = s.log ∧ QpBound s'.table i qp ∧
      ∀ id, id ≠ i + 1 → s'.table.sqs id = s.table.sqs id ∧ s'.table.cqs id = s.table.cqs id := by
  unfold registerQp at h
  split at h
  · cases h
  split at h
  · cases h
  · rename_i dma s₁ hm
    obtain ⟨ha, ht, hl⟩ := mapHost_same hm
    simp only at h
    split at h
    · cases h
    · rename_i cq hsome
      have hi₁ : s₁.admin.pair.Idle := by rw [ha]; exact hi
      obtain ⟨hidle, hlog, htab, loc, v, hcl⟩ := create_ok hi₁ hsome
      obtain ⟨hidle', hlog', hcq, sq, sqDma, a, loc', v', hsq, hp, hcl', htab'⟩ :=
        registerSq_ok hidle hid h
      obtain ⟨hno, hio⟩ := nvmQueueClear_fields hcl
      obtain ⟨hno', hio'⟩ := nvmQueueClear_fields hcl'
      rw [QTable.exec_cqCreate, hno, u16, Nat.mod_eq_of_lt hid] at htab
      have hpair : qp.pair.Inv 0 := by
        rw [hp]
        exact Qp.Inv.create (by decide) (by decide) hcl' hcl
      have hcmds : qp.pair.cmds.length = 0 := by rw [hp]; rfl
      refine ⟨hidle', by rw [hlog', ← hl]; exact hlog, ⟨⟨sqDma, hsq, ?_, ?_⟩, ⟨dma, hcq, ?_, ?_⟩, ?_,
        ?_, by rw [Qp.Idle, hcmds]; exact hpair⟩, fun id hne => ?_⟩
      · rw [hp]; exact hio'
      · rw [htab']; simp
      · rw [hp]; exact hio
      · rw [htab']
        exact (congrFun (congrArg QTable.cqs htab) (i + 1)).trans (Function.update_self ..)
      · rw [hp]; exact hno'
      · rw [hp]; exact hno
      · rw [htab']
        refine ⟨?_, ?_⟩
        · refine (Function.update_of_ne hne ..).trans ?_
          rw [congrFun (congrArg QTable.sqs htab) id, ht]
        · refine (congrFun (congrArg QTable.cqs htab) id).trans ?_
          refine (Function.update_of_ne hne ..).trans ?_
          rw [ht]

/-- No queue has a number above `i`. -/
def Nvm.QTable.FreeAbove (tb : QTable) (i : Nat) : Prop :=
  ∀ id, i < id → tb.sqs id = none ∧ tb.cqs id = none

/-- The loop, failing or not, releases memory safely when the controller has no queues from number
`i + 1` on. -/
theorem registerQps_leads (env : Nat → QpEnv) (n : Nat) {i : Nat} (hin : i + n < 2 ^ 16) (s : Sess)
    (done : List IOQueuePair) :
    Leads c (s.table.FreeAbove i) s (registerQps c env n i s done).2 := by
  induction n generalizing i s done with
  | zero => exact .refl s
  | succ n ih =>
    have hl : Leads c (s.table.FreeAbove i) s (registerQp c s (env i) i).2 :=
      (Leads.refl s).bind (registerQp_leads s (env i) i) fun hfree _ _ =>
        hfree (i + 1) (Nat.lt_succ_self i)
    simp only [registerQps]
    split
    · rename_i qp s₁ h
      rw [h] at hl
      exact (hl.trans (cleanupQp_leads s₁ qp)).trans (cleanupQps_leads done _)
    · rename_i qp s₁ h
      rw [h] at hl
      refine hl.bind (ih (by omega) s₁ _) fun hfree hg _ => ?_
      obtain ⟨-, -, -, hsame⟩ := registerQp_ok hg.idle (by omega) h
      intro id hid
      obtain ⟨h1, h2⟩ := hsame id (by omega)
      rw [h1, h2]
      exact hfree id (by omega)

/-- The loop's queue pairs, when it gets through: pair `j` of them is the controller's pair
`j + 1`. -/
theorem registerQps_ok (env : Nat → QpEnv) (n : Nat) {i : Nat} (hin : i + n < 2 ^ 16) {s s' : Sess}
    (hi : s.admin.pair.Idle) {done qps : List IOQueuePair} (hlen : done.length = i)
    (hdone : ∀ (j : Nat) qp, done[j]? = some qp → QpBound s.table j qp)
    (h : registerQps c env n i s done = (some qps, s')) :
    s'.admin.pair.Idle ∧ s'.log = s.log ∧ qps.length = i + n ∧
      ∀ (j : Nat) qp, qps[j]? = some qp → QpBound s'.table j qp := by
  induction n generalizing i s done with
  | zero =>
    cases h
    exact ⟨hi, rfl, hlen, hdone⟩
  | succ n ih =>
    simp only [registerQps] at h
    split at h
    · cases h
    · rename_i qp s₁ hq
      obtain ⟨hi₁, hl₁, hb, hsame⟩ := registerQp_ok hi (by omega) hq
      have hkept (j : Nat) (qp' : IOQueuePair) (hj : done[j]? = some qp') :
          QpBound s₁.table j qp' := by
        obtain ⟨⟨d, e1, e2, e3⟩, ⟨d', e1', e2', e3'⟩, e4, e5, e6⟩ := hdone j qp' hj
        have hlt := (List.getElem?_eq_some_iff.mp hj).1
        obtain ⟨f1, f2⟩ := hsame (j + 1) (by omega)
        exact ⟨⟨d, e1, e2, f1.trans e3⟩, ⟨d', e1', e2', f2.trans e3'⟩, e4, e5, e6⟩
      obtain ⟨h1, h2, h3, h4⟩ := ih (by omega) hi₁ (by simp [hlen])
        (forall_snoc hkept (hlen.symm ▸ hb)) h
      exact ⟨h1, h2.trans hl₁, by omega, h4⟩

end Register

end UGDS
