import UGDS.Api.RegActs
import UGDS.Lib.Keys

/-!
# UGDS.Api.Cleanup

What the calls of a registration hold, and that `cleanup_qp` (`ugds_handle.cpp`) gives up what a
queue pair holds.

* `Ledgered`: the calls so far, and what they hold. `Ledgered.acquire`, `Ledgered.release` and
  `Ledgered.use` add a call.
* `Roomy.issue`, `Ready.rpc`: the admin commands reach the submission queue.
* `cleanupQp_ledgered`, `cleanupQps_ledgered`: one queue pair, as far as it has been built, and the
  finished ones.
-/

namespace UGDS

open Nvm Lib Drv

/-! ## Calls and what they hold -/

/-- The place of a resource in the order in which a registration acquires them. -/
def RegRes.pos : RegRes → Nat
  | .ctrl => 0
  | .buf .aq => 1
  | .dma .aq => 2
  | .aqRef => 3
  | .buf (.cq i) => 8 * i + 4
  | .dma (.cq i) => 8 * i + 5
  | .cq no => 8 * (no - 1) + 6
  | .buf (.sq i) => 8 * i + 7
  | .dma (.sq i) => 8 * i + 8
  | .sq no => 8 * (no - 1) + 9
  | .buf (.prp i) => 8 * i + 10
  | .dma (.prp i) => 8 * i + 11

/-- A submission queue is created with the completion queue of its number, and `*fh` is not written. -/
def RegAct.Matched : RegAct → Prop
  | .cmd c _ => c.opcode = NVM_ADMIN_CREATE_SQ → c.cqid = c.qid
  | .setFh => False
  | _ => True

/-- The calls `acts` go through and hold `held`. They have acquired each resource once, and none from
place `p` on. -/
structure Ledgered (p : Nat) (acts : List RegAct) (held : Multiset RegRes) : Prop where
  account : account 0 (acts.map RegAct.call) = some held
  nodup : ((acquired (acts.map RegAct.call)).map RegRes.pos).Nodup
  pos : ∀ r ∈ acquired (acts.map RegAct.call), r.pos < p
  matched : ∀ a ∈ acts, a.Matched

section Ledgered

variable {p p' : Nat} {acts : List RegAct} {held : Multiset RegRes} {a : RegAct}
  {needs : List RegRes} {r : RegRes}

theorem Ledgered.nil : Ledgered 0 [] 0 := by
  refine ⟨rfl, List.nodup_nil, ?_, ?_⟩ <;> simp [acquired]

theorem Ledgered.mono (h : Ledgered p acts held) (hp : p ≤ p') : Ledgered p' acts held :=
  { h with pos := fun r hr => (h.pos r hr).trans_le hp }

theorem Ledgered.matched_snoc (h : Ledgered p acts held) (hm : a.Matched) :
    ∀ x ∈ acts ++ [a], x.Matched :=
  List.forall_mem_append.mpr ⟨h.matched, List.forall_mem_singleton.mpr hm⟩

theorem Ledgered.acquire (h : Ledgered p acts held)
    (ha : a.call = ⟨needs, some (.acquire r)⟩) (hn : ∀ x ∈ needs, x ∈ held) (hp : p ≤ r.pos)
    (hm : a.Matched) :
    Ledgered (r.pos + 1) (acts ++ [a]) (r ::ₘ held) := by
  have hacq : acquired ((acts ++ [a]).map RegAct.call) =
      acquired (acts.map RegAct.call) ++ [r] := by
    rw [List.map_append, acquired_append, List.map_singleton, acquired_cons, ha]
    rfl
  refine ⟨?_, ?_, ?_, h.matched_snoc hm⟩
  · rw [List.map_append, List.map_singleton, account_snoc h.account, ha]
    exact Call.apply_acquire hn
  · rw [hacq, List.map_append, List.map_singleton]
    refine nodup_snoc h.nodup fun hmem => ?_
    obtain ⟨x, hx, he⟩ := List.mem_map.mp hmem
    have := h.pos x hx
    omega
  · rw [hacq]
    exact snoc_lt (fun x hx => (h.pos x hx).trans_le (hp.trans (Nat.le_succ _))) (Nat.lt_succ_self _)

theorem Ledgered.keep (h : Ledgered p acts held) (ha : a.call.acquires = none)
    {held' : Multiset RegRes} (hc : a.call.apply held = some held') (hm : a.Matched) :
    Ledgered p (acts ++ [a]) held' := by
  have hacq : acquired ((acts ++ [a]).map RegAct.call) = acquired (acts.map RegAct.call) := by
    rw [List.map_append, acquired_append, List.map_singleton, acquired_cons, ha]
    exact List.append_nil _
  refine ⟨?_, hacq ▸ h.nodup, hacq ▸ h.pos, h.matched_snoc hm⟩
  rw [List.map_append, List.map_singleton, account_snoc h.account, hc]

theorem Ledgered.release (h : Ledgered p acts (r ::ₘ held))
    (ha : a.call = ⟨needs, some (.release r)⟩) (hn : ∀ x ∈ needs, x ∈ r ::ₘ held) (hm : a.Matched) :
    Ledgered p (acts ++ [a]) held :=
  h.keep (by rw [ha]; rfl) (by rw [ha]; exact Call.apply_release hn) hm

theorem Ledgered.use (h : Ledgered p acts held) (ha : a.call = ⟨needs, none⟩)
    (hn : ∀ x ∈ needs, x ∈ held) (hm : a.Matched) :
    Ledgered p (acts ++ [a]) held :=
  h.keep (by rw [ha]; rfl) (by rw [ha]; exact Call.apply_use hn) hm

end Ledgered

/-! ## Admin commands -/

/-- `k` more commands fit into the submission queue. -/
def Roomy (k : Nat) (a : Admin) : Prop :=
  ∃ n, a.pair.Inv n ∧ a.pair.cmds.length + k < n + a.pair.sq.q.qs

/-- Nothing is outstanding, and the queue is as long as the smallest one. -/
structure Ready (a : Admin) : Prop where
  idle : a.pair.Idle
  qs : 64 ≤ a.pair.sq.q.qs

section Admin

variable {a a' : Admin} {k : Nat} {c : Ctx} {t : Traced}

theorem Ready.roomy (h : Ready a) (hk : k < 64) : Roomy k a :=
  ⟨_, h.idle, by have := h.qs; omega⟩

theorem Roomy.issue (h : Roomy (k + 1) a) (dev : Device) (timeout : Nat) (cmd : NvmCmd) :
    Roomy k (nvmRawRpc dev timeout a cmd).2.2 ∧
      ∃ n n', Issued a (nvmRawRpc dev timeout a cmd).2.2 cmd n n' := by
  obtain ⟨n, hn, hlt⟩ := h
  rcases nvmRawRpc_inv hn dev timeout cmd with ⟨-, hfull⟩ | ⟨n', hi⟩
  · obtain ⟨slot, r, he, -⟩ := hn.issue (by omega)
    rw [hfull] at he
    cases he
  · refine ⟨⟨n', hi.inv, ?_⟩, n, n', hi⟩
    obtain ⟨cid, hc⟩ := hi.cmds
    have hle := hi.le
    rw [hc, hi.qs, List.length_append, List.length_singleton]
    omega

theorem submitted_of_issued {cmd : NvmCmd} {n n' : Nat} (h : Issued a a' cmd n n') (r : Int) :
    ∃ cid, submitted a a' r = [.cmd (cmd.withCid cid) r] := by
  obtain ⟨cid, hc⟩ := h.cmds
  exact ⟨cid, by rw [submitted, hc, List.drop_left, List.map_singleton]⟩

theorem submitted_self (a : Admin) (r : Int) : submitted a a r = [] := by
  rw [submitted, List.drop_length, List.map_nil]

/-- A command on an admin pair that is ready: it is submitted, and unless the wait runs out the pair
is ready again. -/
theorem Ready.rpc (h : Ready a) (dev : Device) (timeout : Nat) (cmd : NvmCmd) :
    let x := nvmRawRpc dev timeout a cmd
    Roomy 62 x.2.2 ∧ (x.1 = 0 → Ready x.2.2) ∧
      ∃ cid, submitted a x.2.2 x.1 = [.cmd (cmd.withCid cid) x.1] := by
  intro x
  have hroom : Roomy (62 + 1) a := h.roomy (by decide)
  obtain ⟨hr, n, n', hi⟩ := hroom.issue dev timeout cmd
  refine ⟨hr, fun h0 => ⟨?_, ?_⟩, submitted_of_issued hi _⟩
  · refine (nvmRawRpc_called dev timeout h.idle cmd).idle h.idle ?_
    intro he
    exact absurd (h0.symm.trans he) (by decide)
  · rw [hi.qs]
    exact h.qs

end Admin

/-! ## The calls of the commands -/

section Commands

variable (r : Int) (cid : BitVec 16)

/-- The identifier has no part in what a command acquires and releases. -/
theorem call_withCid (c : NvmCmd) : (RegAct.cmd (c.withCid cid) r).call = cmdCall c r := by
  have hq : (c.withCid cid).qid = c.qid := rfl
  have hcq : (c.withCid cid).cqid = c.cqid := rfl
  simp only [RegAct.call, cmdCall, c.opcode_withCid, hq, hcq]

theorem adminSqCreate_cqid (sq cq : NvmQueue) (ioaddr : BitVec 64) :
    (adminSqCreate sq cq ioaddr false).cqid = u16 cq.no := by
  have hone : ((1#32) >>> 16) = 0#32 := by decide
  have hshift : (adminSqCreate sq cq ioaddr false).cqid =
      (((BitVec.ofNat 32 cq.no <<< 16) ||| 1#32) >>> 16).toNat := by
    rw [BitVec.toNat_ushiftRight, Nat.shiftRight_eq_div_pow]
    rfl
  rw [hshift, BitVec.ushiftRight_or_distrib, hone, BitVec.or_zero, BitVec.toNat_ushiftRight,
    BitVec.toNat_shiftLeft, BitVec.toNat_ofNat, Nat.shiftRight_eq_div_pow, Nat.shiftLeft_eq, u16]
  omega

theorem call_cqCreate (cq : NvmQueue) (ioaddr : BitVec 64) :
    (RegAct.cmd ((adminCqCreate cq ioaddr false).withCid cid) r).call =
      ⟨[.aqRef], if r = 0 then some (.acquire (.cq (u16 cq.no))) else none⟩ := by
  rw [call_withCid]
  simp only [cmdCall, adminCqCreate_opcode, adminCqCreate_qid, if_true]

theorem call_sqCreate (sq cq : NvmQueue) (ioaddr : BitVec 64) :
    (RegAct.cmd ((adminSqCreate sq cq ioaddr false).withCid cid) r).call =
      ⟨[.aqRef, .cq (u16 cq.no)], if r = 0 then some (.acquire (.sq (u16 sq.no))) else none⟩ := by
  have hne : NVM_ADMIN_CREATE_SQ ≠ NVM_ADMIN_CREATE_CQ := by decide
  rw [call_withCid]
  simp only [cmdCall, adminSqCreate_opcode, adminSqCreate_qid, adminSqCreate_cqid, if_neg hne,
    if_true]

theorem call_sqDelete (sq : NvmQueue) :
    (RegAct.cmd ((adminSqDelete sq).withCid cid) r).call =
      ⟨[.aqRef, .cq (u16 sq.no)], some (.release (.sq (u16 sq.no)))⟩ := by
  have hop : (adminSqDelete sq).opcode = NVM_ADMIN_DELETE_SQ := rfl
  rw [call_withCid]
  simp only [cmdCall, hop, adminSqDelete_qid]
  rfl

theorem call_cqDelete (cq : NvmQueue) :
    (RegAct.cmd ((adminCqDelete cq).withCid cid) r).call =
      ⟨[.aqRef], some (.release (.cq (u16 cq.no)))⟩ := by
  have hop : (adminCqDelete cq).opcode = NVM_ADMIN_DELETE_CQ := rfl
  rw [call_withCid]
  simp only [cmdCall, hop, adminCqDelete_qid]
  rfl

theorem call_identify (ioaddr : BitVec 64) :
    (RegAct.cmd ((adminIdentifyCtrl ioaddr).withCid cid) r).call = ⟨[.aqRef], none⟩ ∧
      (RegAct.cmd ((adminIdentifyNs 1 ioaddr).withCid cid) r).call = ⟨[.aqRef], none⟩ := by
  rw [call_withCid, call_withCid]
  refine ⟨rfl, ?_⟩
  simp only [cmdCall, adminIdentifyNs_opcode]
  rfl

theorem call_setNumQueues (nCqs nSqs : Nat) :
    (RegAct.cmd ((adminSetNumQueues nCqs nSqs).withCid cid) r).call = ⟨[.aqRef], none⟩ :=
  call_withCid r cid (adminSetNumQueues nCqs nSqs)

/-- All commands of a registration but Create SQ, for which it takes the queues' numbers. -/
theorem matched_of_opcode {c : NvmCmd} (op : BitVec 8) (h : c.opcode = op)
    (hne : op ≠ NVM_ADMIN_CREATE_SQ) : (RegAct.cmd (c.withCid cid) r).Matched := by
  intro hop
  rw [c.opcode_withCid, h] at hop
  exact absurd hop hne

theorem matched_sqCreate {sq cq : NvmQueue} (h : sq.no = cq.no) (ioaddr : BitVec 64) :
    (RegAct.cmd ((adminSqCreate sq cq ioaddr false).withCid cid) r).Matched := by
  intro _
  show (adminSqCreate sq cq ioaddr false).cqid = (adminSqCreate sq cq ioaddr false).qid
  rw [adminSqCreate_cqid, adminSqCreate_qid, h]

end Commands

/-! ## Taking down a queue pair -/

namespace OwnedQp

/-- `m` if the pointer is not null. -/
def ifSet {α : Type} (o : Option α) (m : Multiset RegRes) : Multiset RegRes :=
  if o.isSome then m else 0

@[simp] theorem ifSet_none {α : Type} (m : Multiset RegRes) : ifSet (none : Option α) m = 0 := rfl

@[simp] theorem ifSet_some {α : Type} (x : α) (m : Multiset RegRes) : ifSet (some x) m = m := rfl

def sqRes (q : OwnedQp) : Multiset RegRes :=
  ifSet q.qp.sqDma (.sq (q.i + 1) ::ₘ .dma (.sq q.i) ::ₘ 0)

def cqRes (q : OwnedQp) : Multiset RegRes :=
  ifSet q.qp.cqDma (.cq (q.i + 1) ::ₘ .dma (.cq q.i) ::ₘ 0)

def prpRes (q : OwnedQp) : Multiset RegRes := ifSet q.qp.prpDma (.dma (.prp q.i) ::ₘ 0)

def bufRes (q : OwnedQp) : Multiset RegRes :=
  ifSet q.sqBuf (.buf (.sq q.i) ::ₘ 0) +
    (ifSet q.cqBuf (.buf (.cq q.i) ::ₘ 0) + ifSet q.prpBuf (.buf (.prp q.i) ::ₘ 0))

/-- What the pair holds. -/
def res (q : OwnedQp) : Multiset RegRes := q.sqRes + (q.cqRes + (q.prpRes + q.bufRes))

/-- The same in the order in which it was acquired. -/
theorem res_add (q : OwnedQp) (H : Multiset RegRes) :
    q.res + H = q.prpRes + (ifSet q.prpBuf (.buf (.prp q.i) ::ₘ 0) +
      (q.sqRes + (ifSet q.sqBuf (.buf (.sq q.i) ::ₘ 0) +
        (q.cqRes + (ifSet q.cqBuf (.buf (.cq q.i) ::ₘ 0) + H))))) := by
  ext r
  simp only [res, bufRes, Multiset.count_add]
  omega

/-- Memory that is mapped is allocated, and the memory of a queue is mapped exactly while the queue is
there. -/
structure Sound (q : OwnedQp) : Prop where
  no : q.i + 1 < 2 ^ 16
  sq : q.qp.sqDma.isSome → q.qp.pair.sq.q.no = q.i + 1 ∧ q.qp.pair.sq.q.db ≠ none ∧
    q.qp.cqDma.isSome ∧ q.sqBuf.isSome
  cq : q.qp.cqDma.isSome → q.qp.pair.cq.q.no = q.i + 1 ∧ q.qp.pair.cq.q.db ≠ none ∧ q.cqBuf.isSome
  prp : q.qp.prpDma.isSome → q.prpBuf.isSome

end OwnedQp

section Cleanup

variable {p k : Nat} {c : Ctx} {t : Traced} {q : OwnedQp} {K H : Multiset RegRes}

theorem Roomy.mono {a : Admin} {k' : Nat} (h : Roomy k a) (hk : k' ≤ k) : Roomy k' a := by
  obtain ⟨n, hn, hlt⟩ := h
  exact ⟨n, hn, by omega⟩

theorem noteDelete_admin (s : Sess) (a : Admin) (r : Int) : (s.noteDelete a r).admin = a := by
  simp only [Sess.noteDelete]
  split <;> rfl

/-- A Delete command for a queue that exists is submitted, whatever comes of it. -/
theorem Roomy.sqDelete {a : Admin} (h : Roomy (k + 1) a) {sq cq : NvmQueue} (hcq : cq.db ≠ none)
    (hsq : sq.db ≠ none) (dev : Device) (timeout : Nat) :
    let x := nvmAdminSqDelete dev timeout a sq cq
    Roomy k x.2.2 ∧ ∃ cid, submitted a x.2.2 x.1 = [.cmd ((adminSqDelete sq).withCid cid) x.1] := by
  obtain ⟨hr, n, n', hi⟩ := h.issue dev timeout (adminSqDelete sq)
  simp only [nvmAdminSqDelete, if_neg hcq, if_neg hsq]
  split
  · exact ⟨hr, submitted_of_issued hi _⟩
  · exact ⟨hr, submitted_of_issued hi _⟩

theorem Roomy.cqDelete {a : Admin} (h : Roomy (k + 1) a) {cq : NvmQueue} (hcq : cq.db ≠ none)
    (dev : Device) (timeout : Nat) :
    let x := nvmAdminCqDelete dev timeout a cq
    Roomy k x.2.2 ∧ ∃ cid, submitted a x.2.2 x.1 = [.cmd ((adminCqDelete cq).withCid cid) x.1] := by
  obtain ⟨hr, n, n', hi⟩ := h.issue dev timeout (adminCqDelete cq)
  simp only [nvmAdminCqDelete, if_neg hcq]
  split
  · exact ⟨hr, submitted_of_issued hi _⟩
  · exact ⟨hr, submitted_of_issued hi _⟩

theorem unmap_ledgered {m : RegMem} (h : Ledgered p t.acts (.dma m ::ₘ K)) (hbuf : .buf m ∈ K)
    (dma : NvmDma) (mem : Option QueueMem) : Ledgered p (t.unmap c m dma mem).acts K :=
  h.release rfl (by simp [hbuf]) trivial

theorem cleanupSq_ledgered (hq : q.Sound) (hroom : Roomy (k + 1) t.s.admin)
    (h : Ledgered p t.acts (q.sqRes + K)) (haq : .aqRef ∈ K)
    (hheld : q.qp.sqDma.isSome → .cq (q.i + 1) ∈ K ∧ .buf (.sq q.i) ∈ K)
    (hdb : q.qp.sqDma.isSome → q.qp.pair.cq.q.db ≠ none) :
    Roomy k (t.cleanupSq c q).s.admin ∧ Ledgered p (t.cleanupSq c q).acts K := by
  unfold Traced.cleanupSq
  rcases hd : q.qp.sqDma with _ | dma
  · rw [OwnedQp.sqRes, hd, OwnedQp.ifSet_none, Multiset.zero_add] at h
    exact ⟨hroom.mono (Nat.le_succ k), h⟩
  · have hset : q.qp.sqDma.isSome := by rw [hd]; rfl
    obtain ⟨hno, hsq, -⟩ := hq.sq hset
    obtain ⟨hcq, hbuf⟩ := hheld hset
    obtain ⟨hr, cid, hsub⟩ := hroom.sqDelete (hdb hset) hsq c.dev c.mapper.ctrl.timeout
    have hcall := call_sqDelete (nvmAdminSqDelete c.dev c.mapper.ctrl.timeout t.s.admin
      q.qp.pair.sq.q q.qp.pair.cq.q).1 cid q.qp.pair.sq.q
    rw [hno, u16, Nat.mod_eq_of_lt hq.no] at hcall
    refine ⟨(noteDelete_admin _ _ _).symm ▸ hr, ?_⟩
    rw [OwnedQp.sqRes, hd, OwnedQp.ifSet_some, Multiset.cons_add, Multiset.cons_add,
      Multiset.zero_add] at h
    refine unmap_ledgered ?_ hbuf dma _
    simp only [Traced.noteDelete, hsub]
    exact h.release hcall (by simp [haq, hcq])
      (matched_of_opcode _ cid NVM_ADMIN_DELETE_SQ rfl (by decide))

theorem cleanupCq_ledgered (hq : q.Sound) (hroom : Roomy (k + 1) t.s.admin)
    (h : Ledgered p t.acts (q.cqRes + K)) (haq : .aqRef ∈ K)
    (hheld : q.qp.cqDma.isSome → .buf (.cq q.i) ∈ K) :
    Roomy k (t.cleanupCq c q).s.admin ∧ Ledgered p (t.cleanupCq c q).acts K := by
  unfold Traced.cleanupCq
  rcases hd : q.qp.cqDma with _ | dma
  · rw [OwnedQp.cqRes, hd, OwnedQp.ifSet_none, Multiset.zero_add] at h
    exact ⟨hroom.mono (Nat.le_succ k), h⟩
  · have hset : q.qp.cqDma.isSome := by rw [hd]; rfl
    obtain ⟨hno, hcq, -⟩ := hq.cq hset
    have hbuf := hheld hset
    obtain ⟨hr, cid, hsub⟩ := hroom.cqDelete hcq c.dev c.mapper.ctrl.timeout
    have hcall := call_cqDelete (nvmAdminCqDelete c.dev c.mapper.ctrl.timeout t.s.admin
      q.qp.pair.cq.q).1 cid q.qp.pair.cq.q
    rw [hno, u16, Nat.mod_eq_of_lt hq.no] at hcall
    refine ⟨(noteDelete_admin _ _ _).symm ▸ hr, ?_⟩
    rw [OwnedQp.cqRes, hd, OwnedQp.ifSet_some, Multiset.cons_add, Multiset.cons_add,
      Multiset.zero_add] at h
    refine unmap_ledgered ?_ hbuf dma _
    simp only [Traced.noteDelete, hsub]
    exact h.release hcall (by simp [haq])
      (matched_of_opcode _ cid NVM_ADMIN_DELETE_CQ rfl (by decide))

theorem cleanupPrp_ledgered (h : Ledgered p t.acts (q.prpRes + K))
    (hheld : q.qp.prpDma.isSome → .buf (.prp q.i) ∈ K) :
    (t.cleanupPrp c q).s.admin = t.s.admin ∧ Ledgered p (t.cleanupPrp c q).acts K := by
  unfold Traced.cleanupPrp
  rcases hd : q.qp.prpDma with _ | dma
  · rw [OwnedQp.prpRes, hd, OwnedQp.ifSet_none, Multiset.zero_add] at h
    exact ⟨rfl, h⟩
  · have hbuf := hheld (by rw [hd]; rfl)
    rw [OwnedQp.prpRes, hd, OwnedQp.ifSet_some, Multiset.cons_add, Multiset.zero_add] at h
    exact ⟨rfl, unmap_ledgered h hbuf dma none⟩

theorem free_ledgered {m : RegMem} {buf : Option Nat}
    (h : Ledgered p t.acts (OwnedQp.ifSet buf (.buf m ::ₘ 0) + K)) :
    Ledgered p (t.free m buf).acts K := by
  unfold Traced.free
  cases buf with
  | none =>
    rw [OwnedQp.ifSet_none, Multiset.zero_add] at h
    exact h
  | some addr =>
    rw [OwnedQp.ifSet_some, Multiset.cons_add, Multiset.zero_add] at h
    exact h.release rfl (by simp) trivial

/-- `cleanup_qp` gives up what the pair holds. -/
theorem cleanupQp_ledgered (hq : q.Sound) (hroom : Roomy (k + 2) t.s.admin)
    (h : Ledgered p t.acts (q.res + H)) (haq : .aqRef ∈ H) :
    Roomy k (t.cleanupQp c q).s.admin ∧ Ledgered p (t.cleanupQp c q).acts H := by
  have hset {α : Type} {o : Option α} (ho : o.isSome) (m : Multiset RegRes) :
      OwnedQp.ifSet o m = m := if_pos ho
  simp only [OwnedQp.res, OwnedQp.bufRes, Multiset.add_assoc] at h
  obtain ⟨hr₁, h₁⟩ := cleanupSq_ledgered (c := c) hq hroom h (by simp [haq])
    (fun hs => by
      obtain ⟨-, -, hc, hb⟩ := hq.sq hs
      simp [OwnedQp.cqRes, hset hc, hset hb])
    (fun hs => (hq.cq (hq.sq hs).2.2.1).2.1)
  obtain ⟨hr₂, h₂⟩ := cleanupCq_ledgered (c := c) hq hr₁ h₁ (by simp [haq])
    (fun hc => by simp [hset (hq.cq hc).2.2])
  obtain ⟨he₃, h₃⟩ := cleanupPrp_ledgered (c := c) h₂ (fun hp => by simp [hset (hq.prp hp)])
  refine ⟨?_, free_ledgered (free_ledgered (free_ledgered h₃))⟩
  simp only [Traced.cleanupQp, Traced.freeBufs, Traced.free_s, he₃]
  exact hr₂

/-- What a list of pairs holds, on top of `H`. -/
def heldBy (qs : List OwnedQp) (H : Multiset RegRes) : Multiset RegRes :=
  qs.foldr (fun q K => q.res + K) H

theorem heldBy_snoc (qs : List OwnedQp) (q : OwnedQp) (H : Multiset RegRes) :
    heldBy (qs ++ [q]) H = q.res + heldBy qs H := by
  induction qs with
  | nil => rfl
  | cons x qs ih =>
    show x.res + heldBy (qs ++ [q]) H = q.res + (x.res + heldBy qs H)
    rw [ih, ← Multiset.add_assoc, Multiset.add_comm x.res, Multiset.add_assoc]

theorem mem_heldBy {r : RegRes} (h : r ∈ H) (qs : List OwnedQp) : r ∈ heldBy qs H := by
  induction qs with
  | nil => exact h
  | cons q qs ih => exact Multiset.mem_add.mpr (.inr ih)

theorem cleanupQps_ledgered {qs : List OwnedQp} (hqs : ∀ q ∈ qs, q.Sound) {k : Nat}
    (hroom : Roomy (k + 2 * qs.length) t.s.admin) (h : Ledgered p t.acts (heldBy qs H))
    (haq : .aqRef ∈ H) : Ledgered p (qs.foldl (Traced.cleanupQp c) t).acts H := by
  induction qs generalizing t with
  | nil => exact h
  | cons q qs ih =>
    rw [List.length_cons, Nat.mul_succ, ← Nat.add_assoc] at hroom
    obtain ⟨hr, hl⟩ := cleanupQp_ledgered (c := c) (hqs q List.mem_cons_self) hroom h
      (mem_heldBy haq qs)
    exact ih (fun x hx => hqs x (List.mem_cons_of_mem q hx)) hr hl

end Cleanup

end UGDS
