import UGDS.Api.Cleanup

/-!
# UGDS.Api.Rollback

What `uGDSHandleRegister` (`ugds_handle.cpp`) leaves behind when it fails.

* `registerQp_ledgered`: a queue pair, built as far as it goes.
* `registerQps_ledgered`: the loop, when it fails, holds what was held before it.
* `World.handleRegister_ledgered`: the registration, when it fails, holds nothing.
-/

namespace UGDS

open Nvm Lib Drv

/-! ## Building a queue pair -/

/-- What is held once pair `i` has been built as far as `q`. -/
structure PairHeld (i : Nat) (H : Multiset RegRes) (t : Traced) (q : OwnedQp) : Prop where
  place : q.i = i
  sound : q.Sound
  ledgered : Ledgered (8 * i + 12) t.acts (q.res + H)

section Build

variable {p i : Nat} {c : Ctx} {t t' : Traced} {env : QpEnv} {K H : Multiset RegRes}

/-- A buffer is allocated and mapped. -/
theorem mapHost_ledgered {m : RegMem} (h : Ledgered p t.acts K) (hctrl : .ctrl ∈ K)
    (hp : p ≤ (RegRes.buf m).pos) (hpos : (RegRes.buf m).pos < (RegRes.dma m).pos)
    {henv : HostMapEnv} {vaddr size : Nat} {r : Except Errno NvmDma}
    (hx : (t.act (.alloc m)).mapHost c henv m vaddr size = (r, t')) :
    t'.s.admin = t.s.admin ∧
      (∀ e, r = .error e → Ledgered (RegRes.dma m).pos t'.acts (.buf m ::ₘ K)) ∧
      ∀ d, r = .ok d → Ledgered ((RegRes.dma m).pos + 1) t'.acts (.dma m ::ₘ .buf m ::ₘ K) := by
  have hbuf : Ledgered (RegRes.dma m).pos (t.acts ++ [.alloc m]) (.buf m ::ₘ K) :=
    (h.acquire (a := .alloc m) (r := .buf m) rfl (by simp) hp trivial).mono hpos
  have hneeds : ∀ x ∈ [RegRes.ctrl, .buf m], x ∈ RegRes.buf m ::ₘ K := by simp [hctrl]
  cases hx
  refine ⟨rfl, fun e he => ?_, fun d hd => ?_⟩
  · have hcall : (RegAct.map m
        ((t.act (.alloc m)).s.mapHost c henv vaddr size).1.isOk).call = ⟨[.ctrl, .buf m], none⟩ := by
      rw [he]
      rfl
    exact hbuf.use hcall hneeds trivial
  · have hcall : (RegAct.map m ((t.act (.alloc m)).s.mapHost c henv vaddr size).1.isOk).call =
        ⟨[.ctrl, .buf m], some (.acquire (.dma m))⟩ := by
      rw [hd]
      rfl
    exact hbuf.acquire hcall hneeds (Nat.le_refl _) trivial

/-- A Create command on an admin pair that is ready. When the queue is there, so is the pair again;
otherwise a command may be outstanding. -/
theorem Ready.create {a : Admin} (h : Ready a) (dev : Device) (ctrl : NvmCtrl) (isCq : Bool) (id : Nat)
    (dma : NvmDma) (build : NvmQueue → BitVec 64 → NvmCmd) :
    let x := nvmAdminQueueCreate dev ctrl a isCq id dma 0 UGDS_DEFAULT_QUEUE_DEPTH build
    (∃ q cid, x.2.1 = some q ∧ x.1 = 0 ∧ Ready x.2.2 ∧ q.no = id ∧ q.db ≠ none ∧
        submitted a x.2.2 x.1 = [.cmd ((build q dma.base).withCid cid) x.1]) ∨
      x.2.1 = none ∧ x.1 ≠ 0 ∧ Roomy 62 x.2.2 ∧
        (submitted a x.2.2 x.1 = [] ∨
          ∃ q cid, q.no = id ∧
            submitted a x.2.2 x.1 = [.cmd ((build q dma.base).withCid cid) x.1]) := by
  unfold nvmAdminQueueCreate
  rcases hck : nvmQueueCheck ctrl isCq id dma 0 UGDS_DEFAULT_QUEUE_DEPTH with e | q
  · have hne : e.code ≠ 0 := by
      have := Errno.code_pos e
      omega
    exact .inr ⟨rfl, hne, h.roomy (by decide), .inl (submitted_self a _)⟩
  · obtain ⟨hr, hready, cid, hsub⟩ := h.rpc dev ctrl.timeout (build q dma.base)
    obtain ⟨-, v, hcl⟩ := nvmQueueCheck_ok (by decide) hck
    obtain ⟨-, hq⟩ := nvmQueueClear_ok hcl
    have hno : q.no = id := by rw [hq]
    have hdb : q.db ≠ none := by simp [hq]
    simp only
    split
    · rename_i h0
      exact .inr ⟨rfl, h0, hr, .inr ⟨q, cid, hno, hsub⟩⟩
    · rename_i h0
      have h0 : (nvmRawRpc dev ctrl.timeout a (build q dma.base)).1 = 0 := not_not.mp h0
      rw [h0] at hsub
      exact .inl ⟨q, cid, rfl, rfl, hready h0, hno, hdb, hsub⟩

/-- The queue of pair `i`, as a Create command leaves it. -/
structure QueueOf (i : Nat) (q : NvmQueue) : Prop where
  no : q.no = i + 1
  db : q.db ≠ none

/-- What is held when the completion queue of pair `i` is there. -/
def cqHeld (i : Nat) (H : Multiset RegRes) : Multiset RegRes :=
  .cq (i + 1) ::ₘ .dma (.cq i) ::ₘ .buf (.cq i) ::ₘ H

/-- And its submission queue. -/
def sqHeld (i : Nat) (H : Multiset RegRes) : Multiset RegRes :=
  .sq (i + 1) ::ₘ .dma (.sq i) ::ₘ .buf (.sq i) ::ₘ cqHeld i H

/-- The three stages at which the building of a pair can stop. -/
theorem pairHeld_none {cqBuf : Option Nat} (hid : i + 1 < 2 ^ 16)
    (h : Ledgered (8 * i + 12) t.acts (OwnedQp.ifSet cqBuf (.buf (.cq i) ::ₘ 0) + H)) :
    PairHeld i H t ⟨i, .zero, cqBuf, none, none⟩ := by
  refine ⟨rfl, ⟨hid, (fun h => by cases h), (fun h => by cases h), (fun h => by cases h)⟩, ?_⟩
  rw [OwnedQp.res_add]
  simpa only [OwnedQp.prpRes, OwnedQp.sqRes, OwnedQp.cqRes, IOQueuePair.zero, OwnedQp.ifSet_none,
    Multiset.zero_add] using h

theorem pairHeld_cq {cq : NvmQueue} {cqDma : NvmDma} {cqBuf : Nat} {sqBuf : Option Nat}
    (hid : i + 1 < 2 ^ 16) (hcq : QueueOf i cq)
    (h : Ledgered (8 * i + 12) t.acts (OwnedQp.ifSet sqBuf (.buf (.sq i) ::ₘ 0) + cqHeld i H)) :
    PairHeld i H t ⟨i, ⟨.create .zero cq 0, none, some cqDma, none⟩, some cqBuf, sqBuf, none⟩ := by
  refine ⟨rfl, ⟨hid, (fun h => by cases h), fun _ => ⟨hcq.no, hcq.db, rfl⟩, (fun h => by cases h)⟩,
    ?_⟩
  rw [OwnedQp.res_add]
  simpa only [OwnedQp.prpRes, OwnedQp.sqRes, OwnedQp.cqRes, OwnedQp.ifSet_none, OwnedQp.ifSet_some,
    Multiset.zero_add, Multiset.cons_add, cqHeld] using h

theorem pairHeld_sq {sq cq : NvmQueue} {a : BitVec 64} {sqDma cqDma : NvmDma} {cqBuf sqBuf : Nat}
    {prpDma : Option NvmDma} {prpBuf : Option Nat} (hid : i + 1 < 2 ^ 16) (hsq : QueueOf i sq)
    (hcq : QueueOf i cq) (hprp : prpDma.isSome → prpBuf.isSome)
    (h : Ledgered (8 * i + 12) t.acts (OwnedQp.ifSet prpDma (.dma (.prp i) ::ₘ 0) +
      (OwnedQp.ifSet prpBuf (.buf (.prp i) ::ₘ 0) + sqHeld i H))) :
    PairHeld i H t
      ⟨i, ⟨.create sq cq a, some sqDma, some cqDma, prpDma⟩, some cqBuf, some sqBuf, prpBuf⟩ := by
  refine ⟨rfl, ⟨hid, fun _ => ⟨hsq.no, hsq.db, rfl, rfl⟩, fun _ => ⟨hcq.no, hcq.db, rfl⟩, hprp⟩, ?_⟩
  rw [OwnedQp.res_add]
  simpa only [OwnedQp.prpRes, OwnedQp.sqRes, OwnedQp.cqRes, OwnedQp.ifSet_some, Multiset.zero_add,
    Multiset.cons_add, sqHeld, cqHeld] using h

theorem registerPrp_ledgered {sq cq : NvmQueue} {sqDma cqDma : NvmDma} {cqBuf sqBuf : Nat}
    {res : Except OwnedQp OwnedQp} (hid : i + 1 < 2 ^ 16) (hsq : QueueOf i sq) (hcq : QueueOf i cq)
    (h : Ledgered (8 * i + 10) t.acts (sqHeld i H)) (hctrl : .ctrl ∈ H)
    (hx : t.registerPrp c env i sq cq sqDma cqDma cqBuf sqBuf = (res, t')) :
    t'.s.admin = t.s.admin ∧ ∀ q, res = .ok q ∨ res = .error q → PairHeld i H t' q := by
  have hmem : RegRes.ctrl ∈ sqHeld i H := by simp [sqHeld, cqHeld, hctrl]
  unfold Traced.registerPrp at hx
  rcases hb : env.prpBuf with _ | buf
  · simp only [hb] at hx
    cases hx
    refine ⟨rfl, fun q hq => ?_⟩
    obtain rfl : _ = q := by simpa using hq
    have hl : Ledgered (8 * i + 12) t.acts (sqHeld i H) := h.mono (by omega)
    refine pairHeld_sq hid hsq hcq id ?_
    simpa only [OwnedQp.ifSet_none, Multiset.zero_add] using hl
  · simp only [hb] at hx
    rcases hm : (t.act (.alloc (.prp i))).mapHost c env.prpMap (.prp i) buf c.mapper.ctrl.pageSize with
      ⟨e | dma, t₁⟩
    · obtain ⟨ha, herr, -⟩ := mapHost_ledgered h hmem (Nat.le_refl _) (Nat.lt_succ_self _) hm
      simp only [hm] at hx
      cases hx
      refine ⟨ha, fun q hq => ?_⟩
      obtain rfl : _ = q := by simpa using hq
      have hl := (herr e rfl).mono (Nat.le_succ (8 * i + 11))
      refine pairHeld_sq hid hsq hcq (fun h => by cases h) ?_
      simpa only [OwnedQp.ifSet_none, OwnedQp.ifSet_some, Multiset.zero_add, Multiset.cons_add] using hl
    · obtain ⟨ha, -, hok⟩ := mapHost_ledgered h hmem (Nat.le_refl _) (Nat.lt_succ_self _) hm
      simp only [hm] at hx
      cases hx
      refine ⟨ha, fun q hq => ?_⟩
      obtain rfl : _ = q := by simpa using hq
      have hl : Ledgered (8 * i + 12) _ _ := hok dma rfl
      refine pairHeld_sq hid hsq hcq (fun _ => rfl) ?_
      simpa only [OwnedQp.ifSet_some, Multiset.zero_add, Multiset.cons_add] using hl

/-- A queue is created in memory `m`, or it is not. `x` is what the queue counts as. -/
theorem create_ledgered {m : RegMem} {isCq : Bool} {dma : NvmDma} (x : RegRes) (needs : List RegRes)
    (build : NvmQueue → BitVec 64 → NvmCmd) (hready : Ready t.s.admin)
    (h : Ledgered p t.acts (.dma m ::ₘ K)) (hneeds : ∀ y ∈ needs, y ∈ RegRes.dma m ::ₘ K)
    (hp : p ≤ x.pos)
    (hcall : ∀ q cid r, q.no = i + 1 → (RegAct.cmd ((build q dma.base).withCid cid) r).call =
      ⟨needs, if r = 0 then some (.acquire x) else none⟩)
    (hmatched : ∀ q cid r, q.no = i + 1 → (RegAct.cmd ((build q dma.base).withCid cid) r).Matched)
    {r : Int} {o : Option NvmQueue} {a : Admin}
    (hx : nvmAdminQueueCreate c.dev c.mapper.ctrl t.s.admin isCq (i + 1) dma 0
      UGDS_DEFAULT_QUEUE_DEPTH build = (r, o, a)) :
    (∃ q, o = some q ∧ Ready a ∧ QueueOf i q ∧
        Ledgered (x.pos + 1) (t.note a r).acts (x ::ₘ .dma m ::ₘ K)) ∨
      o = none ∧ Roomy 62 a ∧ Ledgered p (t.note a r).acts (.dma m ::ₘ K) := by
  have hcreate := hready.create c.dev c.mapper.ctrl isCq (i + 1) dma build
  rw [hx] at hcreate
  rcases hcreate with ⟨q, cid, ho, hr, hready', hno, hdb, hsub⟩ | ⟨ho, hne, hroomy, hsub⟩
  · have hc := hcall q cid r hno
    rw [if_pos hr] at hc
    simp only at hsub
    refine .inl ⟨q, ho, hready', ⟨hno, hdb⟩, ?_⟩
    simp only [Traced.note, hsub]
    exact h.acquire hc hneeds hp (hmatched q cid r hno)
  · refine .inr ⟨ho, hroomy, ?_⟩
    rcases hsub with hsub | ⟨q, cid, hno, hsub⟩
    · simp only at hsub
      simp only [Traced.note, hsub, List.append_nil]
      exact h
    · have hc := hcall q cid r hno
      rw [if_neg hne] at hc
      simp only at hsub
      simp only [Traced.note, hsub]
      exact h.use hc hneeds (hmatched q cid r hno)

/-- What the building of a queue pair leaves: when it fails, at most one command is outstanding. -/
structure QpOutcome (i : Nat) (H : Multiset RegRes) (res : Except OwnedQp OwnedQp) (t : Traced) :
    Prop where
  held : ∀ q, res = .ok q ∨ res = .error q → PairHeld i H t q
  roomy : Roomy 62 t.s.admin
  ready : ∀ q, res = .ok q → Ready t.s.admin

theorem qpOutcome_error {q : OwnedQp} (h : PairHeld i H t q) (hr : Roomy 62 t.s.admin) :
    QpOutcome i H (.error q) t := by
  refine ⟨fun q' hq => ?_, hr, fun q' hq => by cases hq⟩
  obtain rfl : q = q' := by simpa using hq
  exact h

theorem registerSq_ledgered {cq : NvmQueue} {cqDma : NvmDma} {cqBuf : Nat}
    {res : Except OwnedQp OwnedQp} (hid : i + 1 < 2 ^ 16) (hcq : QueueOf i cq)
    (hready : Ready t.s.admin) (h : Ledgered (8 * i + 7) t.acts (cqHeld i H)) (hctrl : .ctrl ∈ H)
    (haq : .aqRef ∈ H) (hx : t.registerSq c env i cq cqDma cqBuf = (res, t')) :
    QpOutcome i H res t' := by
  have hmem : RegRes.ctrl ∈ cqHeld i H := by simp [cqHeld, hctrl]
  unfold Traced.registerSq at hx
  rcases hb : env.sqBuf with _ | buf
  · simp only [hb] at hx
    cases hx
    have hl : Ledgered (8 * i + 12) t.acts (cqHeld i H) := h.mono (by omega)
    refine qpOutcome_error (pairHeld_cq hid hcq ?_) (hready.roomy (by decide))
    simpa only [OwnedQp.ifSet_none, Multiset.zero_add] using hl
  simp only [hb] at hx
  rcases hm : (t.act (.alloc (.sq i))).mapHost c env.sqMap (.sq i) buf c.mapper.ctrl.pageSize with
    ⟨e | dma, t₁⟩
  · obtain ⟨ha, herr, -⟩ := mapHost_ledgered h hmem (Nat.le_refl _) (Nat.lt_succ_self _) hm
    simp only [hm] at hx
    cases hx
    have hl : Ledgered (8 * i + 12) _ _ := (herr e rfl).mono (by simp only [RegRes.pos]; omega)
    refine qpOutcome_error (pairHeld_cq hid hcq ?_) (ha ▸ hready.roomy (by decide))
    simpa only [OwnedQp.ifSet_some, Multiset.zero_add, Multiset.cons_add] using hl
  · obtain ⟨ha, -, hok⟩ := mapHost_ledgered h hmem (Nat.le_refl _) (Nat.lt_succ_self _) hm
    simp only [hm, nvmAdminSqCreate] at hx
    rcases hc : nvmAdminQueueCreate c.dev c.mapper.ctrl t₁.s.admin false (i + 1) dma 0
      UGDS_DEFAULT_QUEUE_DEPTH (fun q ioaddr => adminSqCreate q cq ioaddr false) with ⟨r, o, a⟩
    have hnum : u16 (i + 1) = i + 1 := Nat.mod_eq_of_lt hid
    simp only [hc] at hx
    rcases create_ledgered (.sq (i + 1)) [.aqRef, .cq (i + 1)]
        (fun q ioaddr => adminSqCreate q cq ioaddr false) (ha.symm ▸ hready) (hok dma rfl)
        (by simp [cqHeld, haq]) (Nat.le_refl _)
        (fun q cid r hno => by rw [call_sqCreate, hno, hcq.no, hnum])
        (fun q cid r hno => matched_sqCreate r cid (hno.trans hcq.no.symm) _) hc with
      ⟨sq, rfl, hready', hsq, hl⟩ | ⟨rfl, hroomy, hl⟩
    · obtain ⟨ha', hheld⟩ := registerPrp_ledgered hid hsq hcq hl hctrl hx
      have hready'' : Ready t'.s.admin := ha'.symm ▸ hready'
      exact ⟨hheld, hready''.roomy (by decide), fun _ _ => hready''⟩
    · cases hx
      have hun : Ledgered (8 * i + 12) _ _ := (unmap_ledgered (c := c) hl (Multiset.mem_cons_self _ _)
        dma (some (.sq (i + 1)))).mono (by simp only [RegRes.pos]; omega)
      refine qpOutcome_error (pairHeld_cq hid hcq ?_) hroomy
      simpa only [OwnedQp.ifSet_some, Multiset.zero_add, Multiset.cons_add] using hun

theorem registerQp_ledgered {res : Except OwnedQp OwnedQp} (hid : i + 1 < 2 ^ 16)
    (hready : Ready t.s.admin) (h : Ledgered (8 * i + 4) t.acts H) (hctrl : .ctrl ∈ H)
    (haq : .aqRef ∈ H) (hx : t.registerQp c env i = (res, t')) : QpOutcome i H res t' := by
  unfold Traced.registerQp at hx
  rcases hb : env.cqBuf with _ | buf
  · simp only [hb] at hx
    cases hx
    have hl : Ledgered (8 * i + 12) t.acts H := h.mono (by omega)
    refine qpOutcome_error (pairHeld_none hid ?_) (hready.roomy (by decide))
    simpa only [OwnedQp.ifSet_none, Multiset.zero_add] using hl
  simp only [hb] at hx
  rcases hm : (t.act (.alloc (.cq i))).mapHost c env.cqMap (.cq i) buf c.mapper.ctrl.pageSize with
    ⟨e | dma, t₁⟩
  · obtain ⟨ha, herr, -⟩ := mapHost_ledgered h hctrl (Nat.le_refl _) (Nat.lt_succ_self _) hm
    simp only [hm] at hx
    cases hx
    have hl : Ledgered (8 * i + 12) _ _ := (herr e rfl).mono (by simp only [RegRes.pos]; omega)
    refine qpOutcome_error (pairHeld_none hid ?_) (ha ▸ hready.roomy (by decide))
    simpa only [OwnedQp.ifSet_some, Multiset.zero_add, Multiset.cons_add] using hl
  · obtain ⟨ha, -, hok⟩ := mapHost_ledgered h hctrl (Nat.le_refl _) (Nat.lt_succ_self _) hm
    simp only [hm, nvmAdminCqCreate] at hx
    rcases hc : nvmAdminQueueCreate c.dev c.mapper.ctrl t₁.s.admin true (i + 1) dma 0
      UGDS_DEFAULT_QUEUE_DEPTH (fun q ioaddr => adminCqCreate q ioaddr false) with ⟨r, o, a⟩
    have hnum : u16 (i + 1) = i + 1 := Nat.mod_eq_of_lt hid
    simp only [hc] at hx
    rcases create_ledgered (.cq (i + 1)) [.aqRef] (fun q ioaddr => adminCqCreate q ioaddr false)
        (ha.symm ▸ hready) (hok dma rfl) (by simp [haq]) (Nat.le_refl _)
        (fun q cid r hno => by rw [call_cqCreate, hno, hnum])
        (fun q cid r hno => matched_of_opcode r cid _ (adminCqCreate_opcode q _ _) (by decide)) hc with
      ⟨cq, rfl, hready', hcq, hl⟩ | ⟨rfl, hroomy, hl⟩
    · exact registerSq_ledgered hid hcq hready' hl hctrl haq hx
    · cases hx
      have hun : Ledgered (8 * i + 12) _ _ := (unmap_ledgered (c := c) hl (Multiset.mem_cons_self _ _)
        dma (some (.cq (i + 1)))).mono (by simp only [RegRes.pos]; omega)
      refine qpOutcome_error (pairHeld_none hid ?_) hroomy
      simpa only [OwnedQp.ifSet_some, Multiset.zero_add, Multiset.cons_add] using hun

end Build

/-! ## The registration -/

/-- What is held when the admin queues are there. -/
def aqHeld : Multiset RegRes := .aqRef ::ₘ .dma .aq ::ₘ .buf .aq ::ₘ .ctrl ::ₘ 0

section Register

variable {p i : Nat} {c : Ctx} {t t' : Traced} {H : Multiset RegRes}

/-- The loop, when it fails, gives up what it has acquired. -/
theorem registerQps_ledgered (env : Nat → QpEnv) (n : Nat) (hn : i + n ≤ UGDS_DEFAULT_NUM_QPS)
    {done : List OwnedQp} (hlen : done.length = i) (hdone : ∀ q ∈ done, q.Sound)
    (hready : Ready t.s.admin) (h : Ledgered (8 * i + 4) t.acts (heldBy done H)) (hctrl : .ctrl ∈ H)
    (haq : .aqRef ∈ H) (hx : Traced.registerQps c env n i t done = (none, t')) :
    ∃ p ≤ 8 * UGDS_DEFAULT_NUM_QPS + 4, Ledgered p t'.acts H := by
  simp only [UGDS_DEFAULT_NUM_QPS] at hn
  induction n generalizing i t done with
  | zero => cases hx
  | succ n ih =>
    rw [Traced.registerQps] at hx
    rcases hq : t.registerQp c (env i) i with ⟨q | q, t₁⟩
    · have hout := registerQp_ledgered (by omega) hready h (mem_heldBy hctrl done)
        (mem_heldBy haq done) hq
      obtain ⟨-, hsound, hl⟩ := hout.held q (.inr rfl)
      simp only [hq] at hx
      cases hx
      obtain ⟨hroom, hl'⟩ := cleanupQp_ledgered (c := c) (k := 60) hsound hout.roomy hl
        (mem_heldBy haq done)
      have hroom' : Roomy (0 + 2 * done.length) (t₁.cleanupQp c q).s.admin := hroom.mono (by omega)
      exact ⟨_, by simp only [UGDS_DEFAULT_NUM_QPS]; omega, cleanupQps_ledgered hdone hroom' hl' haq⟩
    · have hout := registerQp_ledgered (by omega) hready h (mem_heldBy hctrl done)
        (mem_heldBy haq done) hq
      obtain ⟨-, hsound, hl⟩ := hout.held q (.inl rfl)
      simp only [hq] at hx
      rw [← heldBy_snoc] at hl
      have hdone' : ∀ x ∈ done ++ [q], x.Sound :=
        List.forall_mem_append.mpr ⟨hdone, List.forall_mem_singleton.mpr hsound⟩
      exact ih (by omega) (by simp [hlen]) hdone' (hout.ready q rfl) hl hx

/-- An admin call that creates and deletes nothing. -/
theorem note_ledgered {a : Admin} {r : Int} {cmd : NvmCmd} (h : Ledgered p t.acts H) (haq : .aqRef ∈ H)
    (hcall : ∀ cid, (RegAct.cmd (cmd.withCid cid) r).call = ⟨[.aqRef], none⟩)
    (hop : cmd.opcode ≠ NVM_ADMIN_CREATE_SQ)
    (hsub : submitted t.s.admin a r = [] ∨
      ∃ cid, submitted t.s.admin a r = [.cmd (cmd.withCid cid) r]) :
    Ledgered p (t.note a r).acts H := by
  rcases hsub with hsub | ⟨cid, hsub⟩
  · simp only [Traced.note, hsub, List.append_nil]
    exact h
  · simp only [Traced.note, hsub]
    exact h.use (hcall cid) (by simp [haq]) (matched_of_opcode r cid _ rfl hop)

theorem identify_ledgered {ioaddr : BitVec 64} {cmd : NvmCmd} {b : Bool} (h : Ledgered p t.acts H)
    (haq : .aqRef ∈ H) (hready : Ready t.s.admin)
    (hcall : ∀ r cid, (RegAct.cmd (cmd.withCid cid) r).call = ⟨[.aqRef], none⟩)
    (hop : cmd.opcode ≠ NVM_ADMIN_CREATE_SQ) (hx : t.identify c ioaddr cmd = (b, t')) :
    Ledgered p t'.acts H ∧ (b = true → Ready t'.s.admin) := by
  simp only [Traced.identify, nvmAdminIdentify] at hx
  split at hx
  · cases hx
    refine ⟨note_ledgered h haq (hcall _) hop (.inl (submitted_self _ _)), fun h0 => ?_⟩
    have h0 : Errno.EINVAL.code = 0 := of_decide_eq_true h0
    exact absurd h0 (by decide)
  · obtain ⟨-, hok, hsub⟩ := hready.rpc c.dev c.mapper.ctrl.timeout cmd
    cases hx
    exact ⟨note_ledgered h haq (hcall _) hop (.inr hsub), fun h0 => hok (of_decide_eq_true h0)⟩

theorem requestQps_ledgered {o : Option Nat} (h : Ledgered p t.acts H) (haq : .aqRef ∈ H)
    (hready : Ready t.s.admin) (hx : t.requestQps c = (o, t')) :
    Ledgered p t'.acts H ∧ ∀ n, o = some n → Ready t'.s.admin ∧ n ≤ UGDS_DEFAULT_NUM_QPS := by
  have hne : ¬(UGDS_DEFAULT_NUM_QPS = 0 ∨ UGDS_DEFAULT_NUM_QPS = 0) := by decide
  have hop : (adminSetNumQueues UGDS_DEFAULT_NUM_QPS UGDS_DEFAULT_NUM_QPS).opcode ≠
    NVM_ADMIN_CREATE_SQ := by decide
  obtain ⟨-, hok, hsub⟩ := hready.rpc c.dev c.mapper.ctrl.timeout
    (adminSetNumQueues UGDS_DEFAULT_NUM_QPS UGDS_DEFAULT_NUM_QPS)
  simp only [Traced.requestQps, nvmAdminRequestNumQueues, if_neg hne] at hx
  split at hx
  · rename_i h0
    cases hx
    exact ⟨note_ledgered h haq (fun cid => call_setNumQueues _ cid _ _) hop (.inr hsub),
      fun n hn => by cases hn⟩
  · rename_i h0
    rw [not_not] at h0
    rw [h0] at hsub
    cases hx
    refine ⟨note_ledgered h haq (fun cid => call_setNumQueues _ cid _ _) hop (.inr hsub),
      fun n hn => ?_⟩
    cases hn
    exact ⟨hok h0, Nat.min_le_right _ _⟩

theorem closeAq_ledgered (h : Ledgered p t.acts aqHeld) (aqDma : NvmDma) :
    Ledgered p (t.closeAq c aqDma).acts 0 := by
  have h₁ := h.release (a := .aqDestroy) rfl (by simp) trivial
  have h₂ := h₁.release (a := .unmap .aq) rfl (by simp) trivial
  have h₃ := h₂.release (a := .free .aq) rfl (by simp) trivial
  have h₄ := h₃.release (a := .ctrlFree) rfl (by simp) trivial
  rw [List.append_assoc, List.append_assoc, List.append_assoc] at h₄
  exact h₄

/-- From `nvm_admin_ctrl_info` on, when it fails. -/
theorem registerQueues_ledgered {r : RegCall} {aqDma : NvmDma} (hready : Ready t.s.admin)
    (h : Ledgered 4 t.acts aqHeld) (hx : Traced.registerQueues c r aqDma t = some (none, t')) :
    ∃ p ≤ 8 * UGDS_DEFAULT_NUM_QPS + 4, Ledgered p t'.acts 0 := by
  have hctrl : RegRes.ctrl ∈ aqHeld := by simp [aqHeld]
  have haq : RegRes.aqRef ∈ aqHeld := by simp [aqHeld]
  unfold Traced.registerQueues at hx
  split at hx
  · cases hx
  rename_i ioaddr _
  have hid : (adminIdentifyCtrl ioaddr).opcode ≠ NVM_ADMIN_CREATE_SQ := by
    show NVM_ADMIN_IDENTIFY ≠ NVM_ADMIN_CREATE_SQ
    decide
  have hns : (adminIdentifyNs 1 ioaddr).opcode ≠ NVM_ADMIN_CREATE_SQ := by
    rw [adminIdentifyNs_opcode]
    decide
  split at hx
  · rename_i t₁ h₁
    cases hx
    obtain ⟨hl, -⟩ := identify_ledgered h haq hready (fun r cid => (call_identify r cid ioaddr).1)
      hid h₁
    exact ⟨4, by decide, closeAq_ledgered hl aqDma⟩
  rename_i t₁ h₁
  obtain ⟨hl₁, hready₁⟩ := identify_ledgered h haq hready (fun r cid => (call_identify r cid ioaddr).1)
    hid h₁
  split at hx
  · cases hx
  split at hx
  · rename_i t₂ h₂
    cases hx
    obtain ⟨hl, -⟩ := identify_ledgered hl₁ haq (hready₁ rfl)
      (fun r cid => (call_identify r cid ioaddr).2) hns h₂
    exact ⟨4, by decide, closeAq_ledgered hl aqDma⟩
  rename_i t₂ h₂
  obtain ⟨hl₂, hready₂⟩ := identify_ledgered hl₁ haq (hready₁ rfl)
    (fun r cid => (call_identify r cid ioaddr).2) hns h₂
  split at hx
  · cases hx
  split at hx
  · rename_i t₃ h₃
    cases hx
    exact ⟨4, by decide, closeAq_ledgered (requestQps_ledgered hl₂ haq (hready₂ rfl) h₃).1 aqDma⟩
  rename_i n t₃ h₃
  obtain ⟨hl₃, hn⟩ := requestQps_ledgered hl₂ haq (hready₂ rfl) h₃
  obtain ⟨hready₃, hle⟩ := hn n rfl
  split at hx
  · rename_i t₄ h₄
    cases hx
    have hl₃ : Ledgered (8 * 0 + 4) t₃.acts (heldBy [] aqHeld) := hl₃
    obtain ⟨p, hp, hl₄⟩ := registerQps_ledgered (i := 0) r.qps n (by omega) List.length_nil
      (fun q hq => by cases hq) hready₃ hl₃ hctrl haq h₄
    exact ⟨p, hp, closeAq_ledgered hl₄ aqDma⟩
  · cases hx

/-- The calls up to `nvm_aq_create`, when they succeed. -/
theorem aq_ledgered :
    Ledgered 4 [.ctrlInit, .alloc .aq, .map .aq true, .aqCreate true] aqHeld := by
  have h₀ := Ledgered.nil.acquire (a := .ctrlInit) rfl (by simp) (Nat.zero_le _) trivial
  have h₁ := h₀.acquire (a := .alloc .aq) rfl (by simp) (Nat.le_refl _) trivial
  have h₂ := h₁.acquire (a := .map .aq true) rfl (by simp) (Nat.le_refl _) trivial
  exact h₂.acquire (a := .aqCreate true) rfl (by simp) (Nat.le_refl _) trivial

end Register

namespace World

section Register

variable {dev : Device} {P : Nat} {w w' : World} {r : RegCall} {e : OpError} {acts : List RegAct}

theorem registerAq_ledgered {mapper : Mapper} {aqDma : NvmDma} {pair : Qp} (hidle : pair.Idle)
    (hqs : 64 ≤ pair.sq.q.qs)
    (h : w.registerAqTraced dev P r mapper aqDma pair = some ((e, w'), acts)) (he : e ≠ .SUCCESS) :
    ∃ p ≤ 8 * UGDS_DEFAULT_NUM_QPS + 4, Ledgered p acts 0 := by
  simp only [registerAqTraced] at h
  split at h
  · cases h
  · rename_i t hx
    cases h
    exact registerQueues_ledgered ⟨hidle, hqs⟩ aq_ledgered hx
  · cases h
    exact absurd rfl he

theorem registerCtrl_ledgered {mapper : Mapper} {j : Nat} (hpage : mapper.ctrl.pageSize = 2 ^ j)
    (hlarge : 2 ^ 12 ≤ mapper.ctrl.pageSize)
    (h : w.registerCtrlTraced dev P r mapper = some ((e, w'), acts)) (he : e ≠ .SUCCESS) :
    ∃ p ≤ 8 * UGDS_DEFAULT_NUM_QPS + 4, Ledgered p acts 0 := by
  have h₀ := Ledgered.nil.acquire (a := .ctrlInit) rfl (by simp) (Nat.zero_le _) trivial
  have h₁ := h₀.acquire (a := .alloc .aq) rfl (by simp) (Nat.le_refl _) trivial
  simp only [registerCtrlTraced] at h
  split at h
  · cases h
    exact ⟨1, by decide, h₀.release (a := .ctrlFree) rfl (by simp) trivial⟩
  split at h
  · cases h
    refine ⟨2, by decide, ?_⟩
    have h₂ := h₁.use (a := .map .aq false) rfl (by simp) trivial
    have h₃ := h₂.release (a := .free .aq) rfl (by simp) trivial
    exact h₃.release (a := .ctrlFree) rfl (by simp) trivial
  split at h
  · cases h
  · cases h
    refine ⟨3, by decide, ?_⟩
    have h₂ := h₁.acquire (a := .map .aq true) rfl (by simp) (Nat.le_refl _) trivial
    have h₃ := h₂.use (a := .aqCreate false) rfl (by simp) trivial
    have h₄ := h₃.release (a := .unmap .aq) rfl (by simp) trivial
    have h₅ := h₄.release (a := .free .aq) rfl (by simp) trivial
    exact h₅.release (a := .ctrlFree) rfl (by simp) trivial
  · rename_i pair hc
    refine registerAq_ledgered (createAdmin_idle hpage hc) ?_ h he
    rw [createAdmin_depth hc]
    omega

/-- The calls of a registration that fails have given up everything. -/
theorem handleRegister_ledgered {j : Nat} (h : handleRegister dev (2 ^ j) w r = some (e, w'))
    (he : e ≠ .SUCCESS) :
    ∃ acts, w.registerActs dev (2 ^ j) r = some acts ∧
      ∃ p ≤ 8 * UGDS_DEFAULT_NUM_QPS + 4, Ledgered p acts 0 := by
  obtain ⟨acts, hx, hacts⟩ := traced_of_handleRegister h
  refine ⟨acts, hacts, ?_⟩
  have hnone : ∃ p ≤ 8 * UGDS_DEFAULT_NUM_QPS + 4, Ledgered p [] 0 := ⟨0, Nat.zero_le _, .nil⟩
  unfold handleRegisterTraced at hx
  split at hx
  · cases hx
    exact hnone
  split at hx
  · cases hx
    exact hnone
  split at hx
  · cases hx
    exact hnone
  split at hx
  · rename_i ctrl ho hc
    have hpage : ctrl.pageSize = 2 ^ j := congrArg NvmCtrl.pageSize (nvmCtrlInit_ok hc).2
    exact registerCtrl_ledgered hpage (nvmCtrlInit_large hc) hx he
  · cases hx
    exact hnone

end Register

end World

end UGDS
