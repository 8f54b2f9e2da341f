import UGDS.Api.Undone

/-!
# UGDS.Api.Life

A handle from `uGDSHandleRegister` to `uGDSHandleDeregister` (`ugds_handle.cpp`), whatever the
library, other handles and the controllers do in between.

* `Traced.teardown`: `uGDSHandleDeregister` with a record of its calls.
* `registerQueues_held`: what a registration that succeeds holds.
* `HandleState.Whole`: the handle still has all that, which no step of the library changes
  (`World.call_keeps`).
* `handle_gives_back`: the calls of the two together give back everything that they took, once.
-/

namespace UGDS

open Nvm Lib Drv

/-! ## The calls of `uGDSHandleDeregister` -/

/-- Pair `i` with the buffers that the registration got for it. -/
def OwnedQp.of (env : QpEnv) (i : Nat) (qp : IOQueuePair) : OwnedQp :=
  ⟨i, qp, env.cqBuf, env.sqBuf, env.prpBuf⟩

/-- The queue pairs of a handle that registration `r` has made. -/
def HandleState.owned (r : RegCall) (hs : HandleState) : List OwnedQp :=
  hs.qps.mapIdx fun i qp => .of (r.qps i) i qp

theorem HandleState.owned_qp (r : RegCall) (hs : HandleState) :
    (hs.owned r).map OwnedQp.qp = hs.qps := by
  apply List.ext_getElem?
  intro i
  rw [List.getElem?_map, owned, List.getElem?_mapIdx, Option.map_map]
  exact congrFun Option.map_id hs.qps[i]?

namespace Traced

def teardown (c : Ctx) (t : Traced) (qs : List OwnedQp) (aqDma : Option NvmDma) : Traced :=
  let t := qs.reverse.foldl (cleanupQp c) t
  match aqDma with
  | none => t
  | some aqDma => t.closeAq c aqDma

theorem teardown_forget (c : Ctx) (t : Traced) (r : RegCall) (hs : HandleState) :
    (t.teardown c (hs.owned r) hs.aqDma).s = World.teardown c hs t.s := by
  have hqps : (hs.owned r).reverse.map OwnedQp.qp = hs.qps.reverse := by
    rw [List.map_reverse, hs.owned_qp]
  have hfold := cleanupQps_forget c t (hs.owned r).reverse
  rw [hqps] at hfold
  simp only [teardown, World.teardown, ← hfold]
  cases hs.aqDma <;> rfl

/-- The same record with earlier calls in front. -/
def before (pre : List RegAct) (t : Traced) : Traced := ⟨t.s, pre ++ t.acts⟩

section Before

variable (c : Ctx) (pre : List RegAct) (t : Traced)

theorem free_before (m : RegMem) (buf : Option Nat) :
    (t.before pre).free m buf = (t.free m buf).before pre := by
  unfold free
  split
  · simp [act, before]
  · rfl

theorem cleanupQp_before (q : OwnedQp) : (t.before pre).cleanupQp c q = (t.cleanupQp c q).before pre := by
  have hsq (t : Traced) : (t.before pre).cleanupSq c q = (t.cleanupSq c q).before pre := by
    unfold cleanupSq
    cases q.qp.sqDma <;> simp [before, noteDelete, unmap]
  have hcq (t : Traced) : (t.before pre).cleanupCq c q = (t.cleanupCq c q).before pre := by
    unfold cleanupCq
    cases q.qp.cqDma <;> simp [before, noteDelete, unmap]
  have hprp (t : Traced) : (t.before pre).cleanupPrp c q = (t.cleanupPrp c q).before pre := by
    unfold cleanupPrp
    cases q.qp.prpDma <;> simp [before, unmap]
  simp only [cleanupQp, freeBufs, hsq, hcq, hprp, free_before]

theorem cleanupQps_before (qs : List OwnedQp) :
    qs.foldl (cleanupQp c) (t.before pre) = (qs.foldl (cleanupQp c) t).before pre := by
  induction qs generalizing t with
  | nil => rfl
  | cons q qs ih => rw [List.foldl_cons, List.foldl_cons, cleanupQp_before, ih]

theorem teardown_before (qs : List OwnedQp) (aqDma : Option NvmDma) :
    (t.before pre).teardown c qs aqDma = (t.teardown c qs aqDma).before pre := by
  unfold teardown
  rw [cleanupQps_before]
  cases aqDma with
  | none => rfl
  | some aqDma => simp [closeAq, before]

end Before

end Traced

/-- `uGDSHandleDeregister` on a handle that registration `r` has made. -/
def World.deregisterTraced (dev : Device) (P : Nat) (w : World) (current : Task) (h : Nat)
    (r : RegCall) : Option UGDS.Traced :=
  (w.find h).map fun hs =>
    let d := w.ctrlDev h
    let c : Ctx := ⟨w.devFor dev h, ⟨current, d, hs.ctrl, h⟩, P, w.pairsBut h⟩
    UGDS.Traced.teardown c ⟨w.enter d hs.aq, []⟩ (hs.owned r) hs.aqDma

/-! ## What a registration that succeeds holds -/

/-- A queue pair that has been built to the end. -/
structure OwnedQp.Full (q : OwnedQp) : Prop where
  sqDma : q.qp.sqDma.isSome
  cqDma : q.qp.cqDma.isSome
  prpDma : q.qp.prpDma.isSome
  sqBuf : q.sqBuf.isSome
  cqBuf : q.cqBuf.isSome
  prpBuf : q.prpBuf.isSome

/-- `q` is such a pair, the `k`th one of a registration. -/
structure OwnedQp.BuiltAt (env : Nat → QpEnv) (k : Nat) (q : OwnedQp) : Prop where
  full : q.Full
  sound : q.Sound
  eq : q = .of (env k) k q.qp

/-- What every such pair holds. -/
def pairRes (i : Nat) : Multiset RegRes :=
  (.sq (i + 1) ::ₘ .dma (.sq i) ::ₘ 0) + ((.cq (i + 1) ::ₘ .dma (.cq i) ::ₘ 0) +
    ((.dma (.prp i) ::ₘ 0) + ((.buf (.sq i) ::ₘ 0) + ((.buf (.cq i) ::ₘ 0) + (.buf (.prp i) ::ₘ 0)))))

theorem OwnedQp.Full.res_eq {q : OwnedQp} (h : q.Full) : q.res = pairRes q.i := by
  have hset {α : Type} {o : Option α} (ho : o.isSome) (m : Multiset RegRes) :
      OwnedQp.ifSet o m = m := if_pos ho
  simp only [OwnedQp.res, OwnedQp.sqRes, OwnedQp.cqRes, OwnedQp.prpRes, OwnedQp.bufRes,
    hset h.sqDma, hset h.cqDma, hset h.prpDma, hset h.sqBuf, hset h.cqBuf, hset h.prpBuf, pairRes]

section Held

variable {i : Nat} {c : Ctx} {t t' : Traced} {env : QpEnv} {H : Multiset RegRes}

theorem registerPrp_full {sq cq : NvmQueue} {sqDma cqDma : NvmDma} {cqBuf sqBuf : Nat} {q : OwnedQp}
    (hcq : env.cqBuf = some cqBuf) (hsq : env.sqBuf = some sqBuf)
    (h : t.registerPrp c env i sq cq sqDma cqDma cqBuf sqBuf = (.ok q, t')) :
    q.Full ∧ q = .of env i q.qp := by
  unfold Traced.registerPrp at h
  simp only at h
  split at h
  · cases h
  rename_i buf hb
  split at h
  · cases h
  · cases h
    refine ⟨⟨rfl, rfl, rfl, rfl, rfl, rfl⟩, ?_⟩
    rw [OwnedQp.of, hcq, hsq, hb]

theorem registerQp_full {q : OwnedQp} (h : t.registerQp c env i = (.ok q, t')) :
    q.Full ∧ q = .of env i q.qp := by
  unfold Traced.registerQp at h
  split at h
  · cases h
  rename_i cqBuf hcq
  split at h
  · cases h
  simp only at h
  split at h
  · cases h
  unfold Traced.registerSq at h
  simp only at h
  split at h
  · cases h
  rename_i sqBuf hsq
  split at h
  · cases h
  split at h
  · cases h
  · exact registerPrp_full hcq hsq h

/-- The loop when it succeeds. -/
theorem registerQps_held (env : Nat → QpEnv) (n : Nat) (hn : i + n ≤ UGDS_DEFAULT_NUM_QPS)
    {done qs : List OwnedQp} (hlen : done.length = i)
    (hdone : ∀ (k : Nat) q, done[k]? = some q → q.BuiltAt env k)
    (hready : Ready t.s.admin) (h : Ledgered (8 * i + 4) t.acts (heldBy done H)) (hctrl : .ctrl ∈ H)
    (haq : .aqRef ∈ H) (hx : Traced.registerQps c env n i t done = (some qs, t')) :
    Ready t'.s.admin ∧ qs.length ≤ UGDS_DEFAULT_NUM_QPS ∧
      (∀ (k : Nat) q, qs[k]? = some q → q.BuiltAt env k) ∧
      Ledgered (8 * qs.length + 4) t'.acts (heldBy qs H) := by
  induction n generalizing i t done with
  | zero =>
    cases hx
    rw [hlen]
    exact ⟨hready, hn, hdone, h⟩
  | succ n ih =>
    rw [Traced.registerQps] at hx
    rcases hq : t.registerQp c (env i) i with ⟨q | q, t₁⟩
    · simp only [hq] at hx
      cases hx
    · have hsmall : i + 1 < 2 ^ 16 := by
        simp only [UGDS_DEFAULT_NUM_QPS] at hn
        omega
      have hout := registerQp_ledgered hsmall hready h (mem_heldBy hctrl done) (mem_heldBy haq done) hq
      obtain ⟨-, hsound, hl⟩ := hout.held q (.inl rfl)
      rw [← heldBy_snoc] at hl
      simp only [hq] at hx
      refine ih (by omega) (by simp [hlen]) ?_ (hout.ready q rfl) hl hx
      obtain ⟨hfull, heq⟩ := registerQp_full hq
      exact forall_snoc hdone ⟨hfull, hsound, hlen ▸ heq⟩

/-- From `nvm_admin_ctrl_info` on, when it succeeds. -/
theorem registerQueues_held {r : RegCall} {aqDma : NvmDma} {b : Built} {qs : List OwnedQp}
    (hready : Ready t.s.admin) (h : Ledgered 4 t.acts aqHeld)
    (hx : Traced.registerQueues c r aqDma t = some (some (b, qs), t')) :
    b.qps = qs.map OwnedQp.qp ∧ Ready t'.s.admin ∧ qs.length ≤ UGDS_DEFAULT_NUM_QPS ∧
      (∀ (k : Nat) q, qs[k]? = some q → q.BuiltAt r.qps k) ∧
      Ledgered (8 * qs.length + 4) t'.acts (heldBy qs aqHeld) := by
  have hctrl : RegRes.ctrl ∈ aqHeld := by simp [aqHeld]
  have haq : RegRes.aqRef ∈ aqHeld := by simp [aqHeld]
  unfold Traced.registerQueues at hx
  split at hx
  · cases hx
  rename_i ioaddr _
  have hid : (adminIdentifyCtrl ioaddr).opcode ≠ NVM_ADMIN_CREATE_SQ := by
    show NVM_ADMIN_IDENTIFY ≠ NVM_ADMIN_CREATE_SQ
    decide
  have hns : (adminIdentifyNs 1 ioaddr).opcode ≠ NVM_ADMIN_CREATE_SQ := by
    rw [adminIdentifyNs_opcode]
    decide
  split at hx
  · cases hx
  rename_i t₁ h₁
  obtain ⟨hl₁, hready₁⟩ := identify_ledgered h haq hready (fun r cid => (call_identify r cid ioaddr).1)
    hid h₁
  split at hx
  · cases hx
  split at hx
  · cases hx
  rename_i t₂ h₂
  obtain ⟨hl₂, hready₂⟩ := identify_ledgered hl₁ haq (hready₁ rfl)
    (fun r cid => (call_identify r cid ioaddr).2) hns h₂
  split at hx
  · cases hx
  split at hx
  · cases hx
  rename_i n t₃ h₃
  obtain ⟨hl₃, hn⟩ := requestQps_ledgered hl₂ haq (hready₂ rfl) h₃
  obtain ⟨hready₃, hle⟩ := hn n rfl
  split at hx
  · cases hx
  · rename_i qps t₄ h₄
    cases hx
    have hl₃ : Ledgered (8 * 0 + 4) t₃.acts (heldBy [] aqHeld) := hl₃
    refine ⟨rfl, ?_⟩
    exact registerQps_held (i := 0) r.qps n (by omega) List.length_nil (fun k q hq => by cases hq)
      hready₃ hl₃ hctrl haq h₄

end Held

section Owned

variable {qs : List OwnedQp} {H : Multiset RegRes}

/-- Pairs that have been built to the end hold the same whatever has been done with them. -/
theorem heldBy_full (h : ∀ (k : Nat) q, qs[k]? = some q → q.Full ∧ q.i = k) :
    heldBy qs H = ((List.range qs.length).map pairRes).foldr (· + ·) H := by
  have hres : qs.map OwnedQp.res = (List.range qs.length).map pairRes := by
    apply List.ext_getElem (by simp)
    intro k hk hk'
    rw [List.length_map] at hk
    obtain ⟨hfull, hi⟩ := h k _ (List.getElem?_eq_getElem hk)
    rw [List.getElem_map, List.getElem_map, List.getElem_range, hfull.res_eq, hi]
  rw [← hres, List.foldr_map]
  rfl

theorem heldBy_reverse (qs : List OwnedQp) (H : Multiset RegRes) :
    heldBy qs.reverse H = heldBy qs H := by
  induction qs with
  | nil => rfl
  | cons q qs ih =>
    rw [List.reverse_cons, heldBy_snoc, ih]
    rfl

end Owned

/-! ## While the handle is registered -/

structure IOQueuePair.Whole (i : Nat) (q : IOQueuePair) : Prop where
  sqDma : q.sqDma.isSome
  cqDma : q.cqDma.isSome
  prpDma : q.prpDma.isSome
  sq_no : q.pair.sq.q.no = i + 1
  cq_no : q.pair.cq.q.no = i + 1

/-- The handle has `n` queue pairs, with their memory and the numbers they were created with, and the
memory of its admin queues. -/
structure HandleState.Whole (n : Nat) (hs : HandleState) : Prop where
  aqDma : hs.aqDma.isSome
  depth : 64 ≤ hs.aq.sq.q.qs
  count : hs.qps.length = n
  pair : ∀ (i : Nat) q, hs.qps[i]? = some q → q.Whole i

/-- Registration `r` has got memory for `n` queue pairs. -/
def RegCall.Allocated (r : RegCall) (n : Nat) : Prop :=
  ∀ i < n, (r.qps i).sqBuf.isSome ∧ (r.qps i).cqBuf.isSome ∧ (r.qps i).prpBuf.isSome

section Whole

variable {n : Nat} {hs : HandleState}

theorem HandleState.Whole.set {i rr : Nat} {q : IOQueuePair} {pair : Qp} (h : hs.Whole n)
    (hq : hs.qps[i]? = some q) (hids : pair.ids = q.pair.ids) :
    ({ hs with rrCounter := rr, qps := hs.qps.set i { q with pair := pair } } : HandleState).Whole n := by
  refine ⟨h.aqDma, h.depth, by simpa using h.count, ?_⟩
  intro k q' hq'
  rw [List.getElem?_set] at hq'
  split at hq'
  · rename_i hik
    subst hik
    split at hq'
    · cases hq'
      have hold := h.pair i q hq
      have hsq : pair.sq.q.no = q.pair.sq.q.no := congrArg (fun x => x.1.1) hids
      have hcq : pair.cq.q.no = q.pair.cq.q.no := congrArg (fun x => x.2.1) hids
      exact ⟨hold.sqDma, hold.cqDma, hold.prpDma, hsq.trans hold.sq_no, hcq.trans hold.cq_no⟩
    · cases hq'
  · exact h.pair k q' hq'

/-- What `uGDSHandleDeregister` finds. -/
theorem HandleState.Whole.owned {r : RegCall} (h : hs.Whole n) (hr : r.Allocated n)
    {k : Nat} {q : OwnedQp} (hq : (hs.owned r)[k]? = some q) : q.Full ∧ q.i = k := by
  rw [HandleState.owned, List.getElem?_mapIdx, Option.map_eq_some_iff] at hq
  obtain ⟨qp, hqp, rfl⟩ := hq
  have hw := h.pair k qp hqp
  have hlt : k < n := by
    rw [← h.count]
    exact (List.getElem?_eq_some_iff.mp hqp).1
  obtain ⟨hsq, hcq, hprp⟩ := hr k hlt
  exact ⟨⟨hw.sqDma, hw.cqDma, hw.prpDma, hsq, hcq, hprp⟩, rfl⟩

theorem HandleState.Whole.sound {r : RegCall} {id : Nat} (h : hs.Whole n) (hr : r.Allocated n)
    (hn : n ≤ UGDS_DEFAULT_NUM_QPS) (hwf : hs.Wf id) : ∀ q ∈ hs.owned r, q.Sound := by
  intro q hq
  obtain ⟨k, hk⟩ := List.mem_iff_getElem?.mp hq
  obtain ⟨hfull, -⟩ := h.owned hr hk
  rw [HandleState.owned, List.getElem?_mapIdx, Option.map_eq_some_iff] at hk
  obtain ⟨qp, hqp, rfl⟩ := hk
  have hw := h.pair k qp hqp
  obtain ⟨m, hinv⟩ := hwf.pairs qp (List.mem_of_getElem? hqp)
  have hlt : k < n := by
    rw [← h.count]
    exact (List.getElem?_eq_some_iff.mp hqp).1
  refine ⟨?_, fun _ => ⟨hw.sq_no, hinv.sq.db_some, hw.cqDma, hfull.sqBuf⟩,
    fun _ => ⟨hw.cq_no, hinv.cq.db_some, hfull.cqBuf⟩, fun _ => hfull.prpBuf⟩
  simp only [UGDS_DEFAULT_NUM_QPS] at hn
  show k + 1 < 2 ^ 16
  omega

end Whole

namespace World

/-- Handle `h` is whole as long as it is there, and its number is not given out again. -/
structure Keeps (h n : Nat) (w : World) : Prop where
  given : h < w.nextId
  whole : ∀ hs ∈ w.handles, hs.ctrlId = h → hs.Whole n

section Keeps

variable {dev : Device} {j h n : Nat} {w w' : World}

theorem Keeps.setHandle (hk : w.Keeps h n) {id : Nat} {hs hs' : HandleState}
    (hf : w.find id = some hs) (hid : hs'.ctrlId = hs.ctrlId) (hw : hs.Whole n → hs'.Whole n) :
    (w.setHandle hs').Keeps h n := by
  refine ⟨hk.given, fun x hx hxid => ?_⟩
  rcases mem_setHandle hx with hx | rfl
  · exact hk.whole x hx hxid
  · exact hw (hk.whole hs (find_mem hf).1 (hid.symm.trans hxid))

theorem Keeps.of_handles (hk : w.Keeps h n) (hid : w.nextId ≤ w'.nextId)
    (hsub : ∀ hs ∈ w'.handles, hs.ctrlId = h → hs ∈ w.handles) : w'.Keeps h n :=
  ⟨hk.given.trans_le hid, fun x hx hxid => hk.whole x (hsub x hx hxid) hxid⟩

theorem io_keeps {env : DeviceMapEnv} {current : Task} {id : Nat} {a : IoArgs} {m : Int}
    (hwf : w.Wf) (hk : w.Keeps h n) (he : w.io dev (2 ^ j) env current id a = some (m, w')) :
    w'.Keeps h n := by
  unfold io at he
  split at he
  · cases he
  rename_i hs hf
  obtain ⟨r, hr, he⟩ := Option.map_eq_some_iff.mp he
  cases he
  have hset : (w.setHandle r.hs).Keeps h n := by
    rcases doIo_cases hr with ⟨-, -, he, -⟩ | ⟨dma, fly, start, q, ret, t', pair, -, -, hq, hl, rfl⟩
    · rw [he]
      exact hk.setHandle hf rfl fun hw => hw
    · obtain ⟨m, hinv⟩ := (hwf.handles hs (find_mem hf).1).pairs q (List.mem_of_getElem? hq)
      exact hk.setHandle hf rfl fun hw => hw.set hq (ioLoop_inv hinv hl).2.ids
  simp only [afterIo]
  split
  · exact ⟨hset.given, hset.whole⟩
  · exact ⟨hset.given, hset.whole⟩

theorem act_keeps {acts : List DevAct} {which : Which} (hwf : w.Wf) (hk : w.Keeps h n)
    (ha : w.act acts which = some w') : w'.Keeps h n := by
  cases acted_of_act ha with
  | @admin id hs hf _ =>
    have hidle := (hwf.handles hs (find_mem hf).1).aq
    have hkeep : (w.setHandle hs).Keeps h n := hk.setHandle hf rfl fun hw => hw
    rw [hidle.foldl_devStep]
    exact ⟨hkeep.given, hkeep.whole⟩
  | @io id i hs q hf hq _ =>
    exact hk.setHandle hf rfl fun hw => hw.set hq (Grows.of_acts acts q.pair).ids
  | freed _ _ =>
    split
    · exact ⟨hk.given, hk.whole⟩
    · exact ⟨hk.given, hk.whole⟩

theorem call_keeps {l : Label} {ret : Ret} (hwf : w.Wf) (hk : w.Keeps h n)
    (hc : w.call dev (2 ^ j) l = some (ret, w')) : w'.Keeps h n := by
  have heff := call_effect hc
  cases l with
  | io env current id a =>
    obtain ⟨⟨m, w₁⟩, hr, he⟩ := Option.map_eq_some_iff.mp hc
    cases he
    exact io_keeps hwf hk hr
  | device acts which =>
    obtain ⟨w₁, hr, he⟩ := Option.map_eq_some_iff.mp hc
    cases he
    exact act_keeps hwf hk hr
  | handleRegister r =>
    cases heff with
    | refused _ _ => exact ⟨hk.given, hk.whole⟩
    | notReset _ => exact hk.of_handles (Nat.le_succ _) fun _ hx _ => hx
    | notBuilt _ => exact hk.of_handles (Nat.le_succ _) fun _ hx _ => hx
    | registered _ hid =>
      refine hk.of_handles (Nat.le_succ _) fun x hx hxid => ?_
      rcases List.mem_append.mp hx with hx | hx
      · exact hx
      · rw [List.mem_singleton.mp hx, hid] at hxid
        exact absurd hxid (Nat.ne_of_gt hk.given)
  | handleDeregister current id =>
    cases heff with
    | refused hl _ => exact ⟨hk.given, hk.whole⟩
    | deregistered _ => exact hk.of_handles le_rfl fun x hx _ => List.mem_of_mem_filter hx
  | _ => cases heff <;> exact ⟨hk.given, hk.whole⟩

theorem run_keeps {tr : List (World × Label)} (hwf : w.Wf) (hk : w.Keeps h n)
    (hr : Run (World.step dev (2 ^ j)) w tr w') : w'.Wf ∧ w'.Keeps h n := by
  refine Run.inv_all (fun w => w.Wf ∧ w.Keeps h n) (fun w₁ l w₂ hi hs => ?_) hr ⟨hwf, hk⟩
  obtain ⟨⟨ret, w₃⟩, hc, he⟩ := Option.map_eq_some_iff.mp hs
  cases he
  exact ⟨hi.1.effect (call_effect hc), call_keeps hi.1 hi.2 hc⟩

end Keeps

/-! ## From registration to deregistration -/

/-- A registration that succeeds adds a handle that is whole; `acts` are its calls up to `*fh`. -/
structure Acquired (r : RegCall) (w w' : World) (hs : HandleState) (acts : List RegAct) : Prop where
  handles : w'.handles = w.handles ++ [hs]
  few : hs.qps.length ≤ UGDS_DEFAULT_NUM_QPS
  whole : hs.Whole hs.qps.length
  allocated : r.Allocated hs.qps.length
  ledgered : Ledgered (8 * hs.qps.length + 4) acts (heldBy (hs.owned r) aqHeld)

section Register

variable {dev : Device} {P : Nat} {w w' : World} {r : RegCall}

/-- The pairs of the new handle are those that were built. -/
theorem owned_of_built {qs : List OwnedQp} {hs : HandleState}
    (hqps : hs.qps = qs.map OwnedQp.qp) (hqs : ∀ (k : Nat) q, qs[k]? = some q → q.BuiltAt r.qps k) :
    hs.owned r = qs := by
  apply List.ext_getElem?
  intro k
  rw [HandleState.owned, List.getElem?_mapIdx, hqps, List.getElem?_map, Option.map_map]
  cases hq : qs[k]? with
  | none => rfl
  | some q => exact congrArg some (hqs k q hq).eq.symm

theorem acquired_of_built {qs : List OwnedQp} {hs : HandleState} {acts : List RegAct}
    (hhandles : w'.handles = w.handles ++ [hs]) (hqps : hs.qps = qs.map OwnedQp.qp)
    (haq : hs.aqDma.isSome) (hdepth : 64 ≤ hs.aq.sq.q.qs) (hfew : qs.length ≤ UGDS_DEFAULT_NUM_QPS)
    (hqs : ∀ (k : Nat) q, qs[k]? = some q → q.BuiltAt r.qps k)
    (hl : Ledgered (8 * qs.length + 4) acts (heldBy qs aqHeld)) : Acquired r w w' hs acts := by
  have hlen : hs.qps.length = qs.length := by rw [hqps, List.length_map]
  refine ⟨hhandles, hlen ▸ hfew, ⟨haq, hdepth, rfl, fun i q hq => ?_⟩, fun i hi => ?_, ?_⟩
  · rw [hqps, List.getElem?_map, Option.map_eq_some_iff] at hq
    obtain ⟨o, ho, rfl⟩ := hq
    have hb := hqs i o ho
    have hi : o.i = i := by rw [hb.eq]; rfl
    exact ⟨hb.full.sqDma, hb.full.cqDma, hb.full.prpDma,
      hi ▸ (hb.sound.sq hb.full.sqDma).1, hi ▸ (hb.sound.cq hb.full.cqDma).1⟩
  · have hb := hqs i _ (List.getElem?_eq_getElem (hlen ▸ hi))
    have hfull := hb.full
    rw [hb.eq] at hfull
    exact ⟨hfull.sqBuf, hfull.cqBuf, hfull.prpBuf⟩
  · rw [owned_of_built hqps hqs, hlen]
    exact hl

theorem registerAq_acquired {mapper : Mapper} {aqDma : NvmDma} {pair : Qp} {acts : List RegAct}
    (hidle : pair.Idle) (hqs : 64 ≤ pair.sq.q.qs)
    (h : w.registerAqTraced dev P r mapper aqDma pair = some ((.SUCCESS, w'), acts)) :
    ∃ hs acts', acts = acts' ++ [.setFh] ∧ hs.ctrlId = mapper.ctrlId ∧ Acquired r w w' hs acts' := by
  simp only [registerAqTraced] at h
  split at h
  · cases h
  · cases h
  · rename_i b qs t hx
    obtain ⟨hqps, hready, hfew, hbuilt, hl⟩ := registerQueues_held ⟨hidle, hqs⟩ aq_ledgered hx
    cases h
    let hs : HandleState :=
      { fd := r.fd, ctrlId := mapper.ctrlId, ctrl := mapper.ctrl, aq := t.s.admin.pair
        aqDma := some aqDma, nsId := 1, blockSize := b.blockSize
        maxTransferSize := b.maxTransferSize, numQps := b.numQps, qps := b.qps, rrCounter := 0 }
    exact ⟨hs, t.acts, rfl, rfl, acquired_of_built rfl hqps rfl hready.qs hfew hbuilt hl⟩

theorem registerCtrl_acquired {mapper : Mapper} {j : Nat} {acts : List RegAct}
    (hpage : mapper.ctrl.pageSize = 2 ^ j) (hlarge : 2 ^ 12 ≤ mapper.ctrl.pageSize)
    (h : w.registerCtrlTraced dev P r mapper = some ((.SUCCESS, w'), acts)) :
    ∃ hs acts', acts = acts' ++ [.setFh] ∧ hs.ctrlId = mapper.ctrlId ∧ Acquired r w w' hs acts' := by
  simp only [registerCtrlTraced] at h
  split at h
  · cases h
  split at h
  · cases h
  split at h
  · cases h
  · cases h
  · rename_i pair hc
    have hdepth : 64 ≤ pair.sq.q.qs := by
      rw [createAdmin_depth hc]
      omega
    obtain ⟨hs, acts', hacts, hid, hacq⟩ :=
      registerAq_acquired (createAdmin_idle hpage hc) hdepth h
    exact ⟨hs, acts', hacts, hid, { hacq with }⟩

theorem handleRegister_acquired {j : Nat} (h : handleRegister dev (2 ^ j) w r = some (.SUCCESS, w')) :
    ∃ hs acts, w.registerActs dev (2 ^ j) r = some (acts ++ [.setFh]) ∧ hs.ctrlId = w.nextId ∧
      Acquired r w w' hs acts := by
  obtain ⟨acts, hx, hacts⟩ := traced_of_handleRegister h
  unfold handleRegisterTraced at hx
  split at hx
  · cases hx
  split at hx
  · cases hx
  split at hx
  · cases hx
  split at hx
  · rename_i ctrl ho hc
    have hpage : ctrl.pageSize = 2 ^ j := congrArg NvmCtrl.pageSize (nvmCtrlInit_ok hc).2
    obtain ⟨hs, acts', rfl, hid, hacq⟩ := registerCtrl_acquired hpage (nvmCtrlInit_large hc) hx
    exact ⟨hs, acts', hacts, hid, { hacq with }⟩
  · cases hx

theorem nextId_lt_of_registered {j : Nat}
    (h : handleRegister dev (2 ^ j) w r = some (.SUCCESS, w')) : w.nextId < w'.nextId := by
  cases handleRegister_effect h with
  | refused _ he => exact absurd rfl he
  | notReset he => exact absurd rfl he
  | notBuilt he => exact absurd rfl he
  | registered => exact Nat.lt_succ_self _

/-- No other handle has the number of the new one. -/
theorem Acquired.keeps {hs : HandleState} {acts : List RegAct} (h : Acquired r w w' hs acts)
    (hwf : w.Wf) (hn : w.nextId < w'.nextId) : w'.Keeps w.nextId hs.qps.length := by
  refine ⟨hn, fun x hx hid => ?_⟩
  rw [h.handles] at hx
  rcases List.mem_append.mp hx with hx | hx
  · exact absurd hid (Nat.ne_of_lt (hwf.handles x hx).id_lt)
  · rw [List.mem_singleton.mp hx]
    exact h.whole

end Register

end World

/-- Two states of a whole handle hold the same. -/
theorem heldBy_whole {n : Nat} {r : RegCall} {hs hs' : HandleState} (hw : hs.Whole n)
    (hw' : hs'.Whole n) (hr : r.Allocated n) (H : Multiset RegRes) :
    heldBy (hs.owned r) H = heldBy (hs'.owned r) H := by
  have hlen : (hs.owned r).length = (hs'.owned r).length := by
    simp only [HandleState.owned, List.length_mapIdx, hw.count, hw'.count]
  rw [heldBy_full fun k q hq => hw.owned hr hq, heldBy_full fun k q hq => hw'.owned hr hq, hlen]

/-- The handle is taken down with all that it holds, so nothing is left. -/
theorem teardown_ledgered {p n : Nat} {c : Ctx} {t : Traced} {r : RegCall} {hs : HandleState} {id : Nat}
    (hw : hs.Whole n) (hr : r.Allocated n) (hn : n ≤ UGDS_DEFAULT_NUM_QPS) (hwf : hs.Wf id)
    (hadmin : t.s.admin.pair = hs.aq) (h : Ledgered p t.acts (heldBy (hs.owned r) aqHeld)) :
    Ledgered p (t.teardown c (hs.owned r) hs.aqDma).acts 0 := by
  have hlen : (hs.owned r).length = n := by rw [HandleState.owned, List.length_mapIdx, hw.count]
  have hready : Ready t.s.admin := ⟨hadmin.symm ▸ hwf.aq, hadmin.symm ▸ hw.depth⟩
  have hroom : Roomy (0 + 2 * (hs.owned r).reverse.length) t.s.admin := by
    apply hready.roomy
    simp only [UGDS_DEFAULT_NUM_QPS] at hn
    rw [List.length_reverse, hlen]
    omega
  have hsound : ∀ q ∈ (hs.owned r).reverse, q.Sound := fun q hq =>
    hw.sound hr hn hwf q (List.mem_reverse.mp hq)
  rw [← heldBy_reverse] at h
  have hl := cleanupQps_ledgered (c := c) hsound hroom h (by simp [aqHeld])
  obtain ⟨aqDma, haq⟩ := Option.isSome_iff_exists.mp hw.aqDma
  simp only [Traced.teardown, haq]
  exact closeAq_ledgered hl aqDma

/-- The same for a record that begins with the deregistration. -/
theorem teardown_ledgered_after {p n : Nat} (c : Ctx) {s : Sess} {acts : List RegAct} {r : RegCall}
    {hs : HandleState} {id : Nat} (hw : hs.Whole n) (hr : r.Allocated n)
    (hn : n ≤ UGDS_DEFAULT_NUM_QPS) (hwf : hs.Wf id) (hadmin : s.admin.pair = hs.aq)
    (h : Ledgered p acts (heldBy (hs.owned r) aqHeld)) :
    Ledgered p (acts ++ (Traced.teardown c ⟨s, []⟩ (hs.owned r) hs.aqDma).acts) 0 := by
  have hl := teardown_ledgered (c := c) (t := ⟨s, acts⟩) hw hr hn hwf hadmin h
  have hbefore := Traced.teardown_before c acts ⟨s, []⟩ (hs.owned r) hs.aqDma
  rw [Traced.before, List.append_nil] at hbefore
  rw [hbefore] at hl
  exact hl

/-- A handle is registered in any reachable state, and later, after any steps of the library and of
the controllers, deregistered. The calls of the two functions together go through: each one finds
what it needs held and gives back only what is held, and nothing is held at the end. They have taken
every buffer, mapping, queue, admin reference and controller once and given it back once, queues
before those they need, mappings before their memory. -/
theorem handle_gives_back {dev : Device} {j nCtrls : Nat} {tr₀ tr : List (World × Label)}
    {w w₁ w₂ w₃ : World} {r : RegCall} {current : Task}
    (h₀ : Run (World.step dev (2 ^ j)) (.init nCtrls) tr₀ w)
    (h₁ : w.handleRegister dev (2 ^ j) r = some (.SUCCESS, w₁))
    (h₂ : Run (World.step dev (2 ^ j)) w₁ tr w₂)
    (h₃ : w₂.handleDeregister dev (2 ^ j) current w.nextId = some w₃) :
    ∃ acts t, w.registerActs dev (2 ^ j) r = some (acts ++ [.setFh]) ∧
      w₂.deregisterTraced dev (2 ^ j) current w.nextId r = some t ∧ w₃.k = t.s.k ∧
      w₃.log = t.s.log ∧ account 0 ((acts ++ t.acts).map RegAct.call) = some 0 ∧
      (acquired ((acts ++ t.acts).map RegAct.call)).Nodup ∧ RolledBack (acts ++ t.acts) := by
  have hwf : w.Wf := World.run_inv World.Wf (fun _ _ => True)
    (fun w l ret w' hi _ he => hi.effect he) h₀ (World.wf_init nCtrls) (by simp)
  obtain ⟨hs, acts, hacts, hid, hacq⟩ := World.handleRegister_acquired h₁
  have hkeep := hacq.keeps hwf (World.nextId_lt_of_registered h₁)
  obtain ⟨hwf₂, hkeep₂⟩ := World.run_keeps (hwf.effect (World.handleRegister_effect h₁)) hkeep h₂
  unfold World.handleDeregister at h₃
  split at h₃
  · cases h₃
  rename_i hs₂ hf
  cases h₃
  obtain ⟨hmem, hid₂⟩ := World.find_mem hf
  have hw₂ := hkeep₂.whole hs₂ hmem hid₂
  refine ⟨acts, _, hacts, by rw [World.deregisterTraced, hf]; rfl, ?_, ?_, ?_⟩
  · rw [Traced.teardown_forget]
    rfl
  · rw [Traced.teardown_forget]
    rfl
  · -- the pairs have been used, but they hold what they held
    have hheld : Ledgered (8 * hs.qps.length + 4) acts (heldBy (hs₂.owned r) aqHeld) := by
      rw [heldBy_whole hw₂ hacq.whole hacq.allocated]
      exact hacq.ledgered
    have hl := teardown_ledgered_after ⟨w₂.devFor dev w.nextId,
      ⟨current, w₂.ctrlDev w.nextId, hs₂.ctrl, w.nextId⟩, 2 ^ j, w₂.pairsBut w.nextId⟩
      (s := w₂.enter (w₂.ctrlDev w.nextId) hs₂.aq) hw₂ hacq.allocated hacq.few
      (hwf₂.handles hs₂ hmem) rfl hheld
    have hfew := hacq.few
    simp only [UGDS_DEFAULT_NUM_QPS] at hfew
    exact ⟨hl.account, hl.nodup.of_map, hl.rolledBack (by omega)⟩

/-- A second handle is registered on the device, which has taken the controller away from the first
one when that is deregistered: its Delete commands stay unanswered, and it gives up the rest. -/
theorem handle_gives_back_unserved :
    ∃ w₁ w₂ w₃ acts t,
      (World.init 1).driverOpen.2.handleRegister .twoPairs (2 ^ 12) (.ok 0) = some (.SUCCESS, w₁) ∧
      w₁.handleRegister .twoPairs (2 ^ 12) (.ok 0) = some (.SUCCESS, w₂) ∧
      w₂.handleDeregister .twoPairs (2 ^ 12) ⟨0, 0⟩ 0 = some w₃ ∧ w₂.serves 0 = false ∧
      (World.init 1).driverOpen.2.registerActs .twoPairs (2 ^ 12) (.ok 0) =
        some (acts ++ [.setFh]) ∧
      w₂.deregisterTraced .twoPairs (2 ^ 12) ⟨0, 0⟩ 0 (.ok 0) = some t ∧
      RolledBack (acts ++ t.acts) ∧
      t.acts.filterMap (RegAct.deleted NVM_ADMIN_DELETE_SQ) = [2, 1] := by
  have hrun : ((World.init 1).driverOpen.2.handleRegister .twoPairs (2 ^ 12) (.ok 0)).any (fun x₁ =>
      x₁.1 = .SUCCESS && (x₁.2.handleRegister .twoPairs (2 ^ 12) (.ok 0)).any fun x₂ =>
        x₂.1 = .SUCCESS && (x₂.2.handleDeregister .twoPairs (2 ^ 12) ⟨0, 0⟩ 0).isSome &&
          x₂.2.serves 0 = false &&
          (x₂.2.deregisterTraced .twoPairs (2 ^ 12) ⟨0, 0⟩ 0 (.ok 0)).any fun t =>
            t.acts.filterMap (RegAct.deleted NVM_ADMIN_DELETE_SQ) = [2, 1]) = true := by
    decide +kernel
  obtain ⟨⟨e₁, w₁⟩, h₁, hrun⟩ := (Option.any_eq_true _ _).mp hrun
  simp only [Bool.and_eq_true, decide_eq_true_eq] at hrun
  obtain ⟨rfl, hrun⟩ := hrun
  obtain ⟨⟨e₂, w₂⟩, h₂, hrun⟩ := (Option.any_eq_true _ _).mp hrun
  simp only [Bool.and_eq_true, decide_eq_true_eq] at hrun
  obtain ⟨⟨⟨rfl, hsome⟩, hserves⟩, hdel⟩ := hrun
  obtain ⟨w₃, h₃⟩ := Option.isSome_iff_exists.mp hsome
  have hopen : World.step .twoPairs (2 ^ 12) (.init 1) .driverOpen = some (World.init 1).driverOpen.2 :=
    rfl
  have hreg : World.step .twoPairs (2 ^ 12) w₁ (.handleRegister (.ok 0)) = some w₂ := by
    simp only [World.step, World.call, h₂, Option.map_some]
  obtain ⟨acts, t, hacts, ht, -, -, -, -, hback⟩ :=
    handle_gives_back (.single hopen) h₁ (.single hreg) h₃
  refine ⟨w₁, w₂, w₃, acts, t, h₁, h₂, h₃, hserves, hacts, ht, hback, ?_⟩
  rw [show (World.init 1).driverOpen.2.nextId = 0 from rfl] at ht
  rw [ht] at hdel
  exact of_decide_eq_true hdel

end UGDS
