import Mathlib.Algebra.BigOperators.Group.List.Basic
import Mathlib.Algebra.Order.Group.Multiset
import UGDS.Api.Registry
import UGDS.Nvm.Backing

/-!
# UGDS.Api.Backing

What the kernel module holds for the library, over whole runs: the mappings behind the DMA handles
that the library has, one each, and nothing else. The handles are those of `buf_registry`, and those
of the queues and list pages of every registered handle; a mapping that a call makes for itself is
gone when it returns.

The library does not know whether the module has found the right mapping. It does when all calls come
from one thread, the addresses can be copied out, and memory that is to be mapped begins in a page in
which nothing mapped begins.

* `cleanupQp_backed`, `registerQps_backed`, `registerQueues_backed`: building and taking down queues.
* `World.Backed.call`: every call, failing or not.
* `kernel_backs_handles`: every run.
-/

namespace UGDS

open Nvm Lib Drv

/-! ## Handles -/

def IOQueuePair.dmas (q : IOQueuePair) : Multiset NvmDma :=
  (q.sqDma.toList : Multiset NvmDma) + q.cqDma.toList + q.prpDma.toList

def HandleState.dmas (hs : HandleState) : Multiset NvmDma :=
  (hs.aqDma.toList : Multiset NvmDma) + (hs.qps.map IOQueuePair.dmas).sum

/-- The pointers `vs` are in pages of their own, in none of which a handle begins. -/
structure Fresh (P : Nat) (host device : Multiset NvmDma) (vs : List Nat) : Prop where
  apart : (vs.map fun v => mask 64 v P).Nodup
  clear : ∀ v ∈ vs, ClearHost P host device v

instance (P : Nat) (host device : Multiset NvmDma) (v : Nat) : Decidable (ClearHost P host device v) :=
  inferInstanceAs (Decidable (∀ d ∈ host + device, _))

instance (P : Nat) (host device : Multiset NvmDma) (v : Nat) :
    Decidable (ClearDevice P host device v) :=
  inferInstanceAs (Decidable ((∀ d ∈ host, _) ∧ ∀ d ∈ device, _))

instance (P : Nat) (host device : Multiset NvmDma) (vs : List Nat) : Decidable (Fresh P host device vs) :=
  decidable_of_iff ((vs.map fun v => mask 64 v P).Nodup ∧ ∀ v ∈ vs, ClearHost P host device v)
    ⟨fun h => ⟨h.1, h.2⟩, fun h => ⟨h.apart, h.clear⟩⟩

section Fresh

variable {P v : Nat} {host device : Multiset NvmDma} {vs ws : List Nat} {dma : NvmDma}

theorem Fresh.sublist (h : Fresh P host device vs) (hs : ws.Sublist vs) : Fresh P host device ws :=
  ⟨h.apart.sublist (hs.map _), fun v hv => h.clear v (hs.subset hv)⟩

theorem Fresh.tail (h : Fresh P host device (vs ++ ws)) : Fresh P host device ws :=
  h.sublist (List.sublist_append_right vs ws)

/-- The first pointer is mapped. -/
theorem Fresh.used (h : Fresh P host device (v :: vs)) (hv : dma.vaddr = v) :
    Fresh P (dma ::ₘ host) device vs := by
  obtain ⟨hnot, hnd⟩ := List.nodup_cons.mp h.apart
  refine ⟨hnd, fun u hu d hd => ?_⟩
  rw [Multiset.cons_add, Multiset.mem_cons] at hd
  rcases hd with rfl | hd
  · intro he
    rw [NvmDma.pageIn, hv] at he
    exact hnot (List.mem_map.mpr ⟨u, hu, he.symm⟩)
  · exact h.clear u (List.mem_cons_of_mem _ hu) d hd

end Fresh

/-! ## Sessions -/

/-- The kernel holds the handles `host` and `device` of the thread that talks to the controller. -/
def Sess.Backed (c : Ctx) (s : Sess) (host device : Multiset NvmDma) : Prop :=
  Holds c.P c.mapper.current s.k host device

/-- The pages of the controller are the host's. -/
structure Ctx.Paged (c : Ctx) (j : Nat) : Prop where
  le : j ≤ 64
  host : c.P = 2 ^ j
  ctrl : c.mapper.ctrl.pageSize = 2 ^ j

/-- The buffers of a queue pair. -/
def QpEnv.buffers (env : QpEnv) : List Nat :=
  env.cqBuf.toList ++ (env.sqBuf.toList ++ env.prpBuf.toList)

def QpEnv.copied (env : QpEnv) : Bool :=
  env.cqMap.copyOut && env.sqMap.copyOut && env.prpMap.copyOut

/-- A queue pair that was built, or as far as it was. -/
def qpOf : Except IOQueuePair IOQueuePair → IOQueuePair
  | .ok q => q
  | .error q => q

section Session

variable {c : Ctx} {j : Nat} {s s' : Sess} {H D : Multiset NvmDma} {dma : NvmDma} {vs : List Nat}

theorem Ctx.Paged.pos (hc : c.Paged j) : 0 < c.P := by
  rw [hc.host]
  exact Nat.two_pow_pos j

theorem mapHost_backed (hc : c.Paged j) {env : HostMapEnv} {buf size : Nat} (h : s.Backed c H D)
    (hf : Fresh c.P H D (buf :: vs)) (hm : s.mapHost c env buf size = (.ok dma, s')) :
    s'.Backed c (dma ::ₘ H) D ∧ Fresh c.P (dma ::ₘ H) D vs := by
  obtain ⟨hok, rfl⟩ := Prod.mk.inj hm
  have hclear := hf.clear buf (List.mem_cons_self ..)
  unfold Sess.Backed at h ⊢
  rw [hc.host] at h hclear hok ⊢
  obtain ⟨hv, hholds⟩ := h.map_host hc.le rfl hc.ctrl hclear (Prod.ext rfl hok)
  rw [hc.host] at hf
  exact ⟨hholds, hf.used hv⟩

theorem mapHost_kept (hc : c.Paged j) {env : HostMapEnv} {buf size : Nat} {e : Errno}
    (hcopy : env.copyOut = true) (hm : s.mapHost c env buf size = (.error e, s')) : s'.k = s.k := by
  obtain ⟨herr, rfl⟩ := Prod.mk.inj hm
  rw [hc.host, hcopy] at herr
  have := nvmDmaMapHost_refused hc.ctrl (Prod.ext rfl herr)
  simpa [hc.host, hcopy] using this

theorem unmap_backed (hP : 0 < c.P) (mem : Option QueueMem) (h : s.Backed c (dma ::ₘ H) D) :
    (s.unmap c dma mem true).Backed c H D :=
  h.unmap_host hP

@[simp] theorem Sess.noteDelete_k (s : Sess) (a : Admin) (r : Int) : (s.noteDelete a r).k = s.k := by
  unfold Sess.noteDelete
  split <;> rfl

/-! ## Taking down -/

theorem cleanupQp_backed (hP : 0 < c.P) {qp : IOQueuePair} (h : s.Backed c (qp.dmas + H) D) :
    (cleanupQp c s qp).Backed c H D := by
  have hsq {s : Sess} {K : Multiset NvmDma} (h : s.Backed c (qp.sqDma.toList + K) D) :
      (cleanupSq c s qp).Backed c K D := by
    unfold cleanupSq
    cases hd : qp.sqDma with
    | none => simpa [hd] using h
    | some dma =>
      refine unmap_backed hP _ ?_
      simpa [hd, Sess.Backed] using h
  have hcq {s : Sess} {K : Multiset NvmDma} (h : s.Backed c (qp.cqDma.toList + K) D) :
      (cleanupCq c s qp).Backed c K D := by
    unfold cleanupCq
    cases hd : qp.cqDma with
    | none => simpa [hd] using h
    | some dma =>
      refine unmap_backed hP _ ?_
      simpa [hd, Sess.Backed] using h
  have hprp {s : Sess} {K : Multiset NvmDma} (h : s.Backed c (qp.prpDma.toList + K) D) :
      (cleanupPrp c s qp).Backed c K D := by
    unfold cleanupPrp
    cases hd : qp.prpDma with
    | none => simpa [hd] using h
    | some dma =>
      refine unmap_backed hP _ ?_
      simpa [hd] using h
  rw [IOQueuePair.dmas, add_assoc, add_assoc] at h
  exact hprp (hcq (hsq h))

theorem cleanupQps_backed (hP : 0 < c.P) {qps : List IOQueuePair}
    (h : s.Backed c ((qps.map IOQueuePair.dmas).sum + H) D) :
    (qps.foldl (cleanupQp c) s).Backed c H D := by
  induction qps generalizing s with
  | nil => simpa using h
  | cons qp qps ih =>
    rw [List.map_cons, List.sum_cons, add_assoc] at h
    exact ih (cleanupQp_backed hP h)

theorem closeAq_backed (hP : 0 < c.P) {aqDma : NvmDma} (h : s.Backed c (aqDma ::ₘ H) D) :
    (closeAq c s aqDma).Backed c H D :=
  unmap_backed hP none h

/-! ## Building queue pairs -/

section Build

variable {env : QpEnv} {i : Nat} {r : Except IOQueuePair IOQueuePair}

theorem registerPrp_backed (hc : c.Paged j) (hcopy : env.copied = true) {sq cq : NvmQueue}
    {sqDma cqDma : NvmDma} (h : s.Backed c (sqDma ::ₘ cqDma ::ₘ H) D)
    (hf : Fresh c.P (sqDma ::ₘ cqDma ::ₘ H) D (env.prpBuf.toList ++ vs))
    (hx : registerPrp c s env sq cq sqDma cqDma = (r, s')) :
    s'.Backed c ((qpOf r).dmas + H) D ∧ Fresh c.P ((qpOf r).dmas + H) D vs := by
  simp only [QpEnv.copied, Bool.and_eq_true] at hcopy
  have hpart (p : Qp) :
      (⟨p, some sqDma, some cqDma, none⟩ : IOQueuePair).dmas + H = sqDma ::ₘ cqDma ::ₘ H := by
    simp [IOQueuePair.dmas]
  have hwhole (p : Qp) (dma : NvmDma) :
      (⟨p, some sqDma, some cqDma, some dma⟩ : IOQueuePair).dmas + H =
        dma ::ₘ sqDma ::ₘ cqDma ::ₘ H := by
    simp only [IOQueuePair.dmas, Option.toList_some, Multiset.coe_singleton,
      ← Multiset.singleton_add]
    ac_rfl
  unfold registerPrp at hx
  split at hx
  · cases hx
    rw [qpOf, hpart]
    exact ⟨h, hf.tail⟩
  · rename_i buf hbuf
    rw [hbuf] at hf
    split at hx
    · rename_i hm
      cases hx
      rw [qpOf, hpart, Sess.Backed, mapHost_kept hc hcopy.2 hm]
      exact ⟨h, hf.tail⟩
    · rename_i hm
      cases hx
      rw [qpOf, hwhole]
      exact mapHost_backed hc h hf hm

theorem registerSq_backed (hc : c.Paged j) (hcopy : env.copied = true) {cq : NvmQueue}
    {cqDma : NvmDma} (h : s.Backed c (cqDma ::ₘ H) D)
    (hf : Fresh c.P (cqDma ::ₘ H) D (env.sqBuf.toList ++ (env.prpBuf.toList ++ vs)))
    (hx : registerSq c s env i cq cqDma = (r, s')) :
    s'.Backed c ((qpOf r).dmas + H) D ∧ Fresh c.P ((qpOf r).dmas + H) D vs := by
  have hcopies := hcopy
  simp only [QpEnv.copied, Bool.and_eq_true] at hcopies
  have hpart (p : Qp) :
      (⟨p, none, some cqDma, none⟩ : IOQueuePair).dmas + H = cqDma ::ₘ H := by
    simp [IOQueuePair.dmas]
  unfold registerSq at hx
  split at hx
  · cases hx
    rw [qpOf, hpart]
    exact ⟨h, hf.tail.tail⟩
  · rename_i buf hbuf
    have hrest := hf.tail.tail
    rw [hbuf] at hf
    split at hx
    · rename_i hm
      cases hx
      rw [qpOf, hpart, Sess.Backed, mapHost_kept hc hcopies.1.2 hm]
      exact ⟨h, hrest⟩
    · rename_i dma s₁ hm
      obtain ⟨h₁, hf₁⟩ := mapHost_backed hc h hf hm
      simp only at hx
      split at hx
      · cases hx
        rw [qpOf, hpart]
        exact ⟨unmap_backed hc.pos _ h₁, hrest⟩
      · exact registerPrp_backed hc hcopy (by exact h₁) hf₁ hx

theorem registerQp_backed (hc : c.Paged j) (hcopy : env.copied = true) (h : s.Backed c H D)
    (hf : Fresh c.P H D (env.buffers ++ vs)) (hx : registerQp c s env i = (r, s')) :
    s'.Backed c ((qpOf r).dmas + H) D ∧ Fresh c.P ((qpOf r).dmas + H) D vs := by
  have hcopies := hcopy
  simp only [QpEnv.copied, Bool.and_eq_true] at hcopies
  have hnone : IOQueuePair.zero.dmas + H = H := by simp [IOQueuePair.dmas, IOQueuePair.zero]
  have hrest := hf.tail
  rw [QpEnv.buffers, List.append_assoc, List.append_assoc] at hf
  unfold registerQp at hx
  split at hx
  · cases hx
    rw [qpOf, hnone]
    exact ⟨h, hrest⟩
  · rename_i buf hbuf
    rw [hbuf] at hf
    split at hx
    · rename_i hm
      cases hx
      rw [qpOf, hnone, Sess.Backed, mapHost_kept hc hcopies.1.1 hm]
      exact ⟨h, hrest⟩
    · rename_i dma s₁ hm
      obtain ⟨h₁, hf₁⟩ := mapHost_backed hc h hf hm
      simp only at hx
      split at hx
      · cases hx
        rw [qpOf, hnone]
        exact ⟨unmap_backed hc.pos _ h₁, hrest⟩
      · exact registerSq_backed hc hcopy (by exact h₁) hf₁ hx

end Build

/-- The pairs to go from number `i` on have their buffers in pages of their own. Building them to the
end adds their handles, and failing leaves those that were there before the first one. -/
theorem registerQps_backed (hc : c.Paged j) {env : Nat → QpEnv} {n i : Nat}
    (hcopy : ∀ k ∈ List.range' i n, (env k).copied = true) {built : List IOQueuePair} {o : Option (List IOQueuePair)}
    (h : s.Backed c ((built.map IOQueuePair.dmas).sum + H) D)
    (hf : Fresh c.P ((built.map IOQueuePair.dmas).sum + H) D
      ((List.range' i n).flatMap fun i => (env i).buffers))
    (hx : registerQps c env n i s built = (o, s')) :
    s'.Backed c (((o.getD []).map IOQueuePair.dmas).sum + H) D := by
  induction n generalizing i s built with
  | zero =>
    cases hx
    exact h
  | succ n ih =>
    rw [List.range'_succ, List.flatMap_cons] at hf
    rw [List.range'_succ, List.forall_mem_cons] at hcopy
    unfold registerQps at hx
    split at hx
    · rename_i qp s₁ hq
      obtain ⟨h₁, -⟩ := registerQp_backed hc hcopy.1 h hf hq
      cases hx
      rw [Option.getD_none, List.map_nil, List.sum_nil, zero_add]
      exact cleanupQps_backed hc.pos (cleanupQp_backed hc.pos h₁)
    · rename_i qp s₁ hq
      obtain ⟨h₁, hf₁⟩ := registerQp_backed hc hcopy.1 h hf hq
      have hmore : (qpOf (.ok qp)).dmas + ((built.map IOQueuePair.dmas).sum + H) =
          ((built ++ [qp]).map IOQueuePair.dmas).sum + H := by
        rw [List.map_append, List.sum_append, List.map_singleton, List.sum_singleton, qpOf]
        ac_rfl
      rw [hmore] at h₁ hf₁
      exact ih hcopy.2 h₁ hf₁ hx

/-- The buffers of the queue pairs that a registration may build. -/
def RegCall.qpBuffers (r : RegCall) (n : Nat) : List Nat :=
  (List.range' 0 n).flatMap fun i => (r.qps i).buffers

def RegCall.qpsCopied (r : RegCall) (n : Nat) : Bool := (List.range' 0 n).all fun i => (r.qps i).copied

theorem RegCall.qpBuffers_sublist (r : RegCall) {m n : Nat} (h : m ≤ n) :
    (r.qpBuffers m).Sublist (r.qpBuffers n) := by
  obtain ⟨k, rfl⟩ := Nat.exists_eq_add_of_le h
  rw [qpBuffers, qpBuffers, ← List.range'_append_1, List.flatMap_append]
  exact List.sublist_append_left _ _

/-- A registration after the reset, with the memory of its admin queues mapped. When it fails, that is
unmapped too. -/
theorem registerQueues_backed (hc : c.Paged j) {r : RegCall} {aqDma : NvmDma} {o : Option Built}
    (hcopy : r.qpsCopied UGDS_DEFAULT_NUM_QPS = true) (h : s.Backed c (aqDma ::ₘ H) D)
    (hf : Fresh c.P (aqDma ::ₘ H) D (r.qpBuffers UGDS_DEFAULT_NUM_QPS))
    (hx : registerQueues c r aqDma s = some (o, s')) :
    (o = none → s'.Backed c H D) ∧
      ∀ b, o = some b → s'.Backed c ((b.qps.map IOQueuePair.dmas).sum + (aqDma ::ₘ H)) D := by
  have hident {s s' : Sess} {b : Bool} {ioaddr : BitVec 64} {cmd : NvmCmd}
      (h : s.Backed c (aqDma ::ₘ H) D) (hi : identify c s ioaddr cmd = (b, s')) :
      s'.Backed c (aqDma ::ₘ H) D := by
    cases hi
    exact h
  have hreq {s s' : Sess} {o : Option Nat} (h : s.Backed c (aqDma ::ₘ H) D)
      (hq : requestQps c s = (o, s')) : s'.Backed c (aqDma ::ₘ H) D := by
    obtain ⟨-, rfl⟩ := Prod.mk.inj hq
    exact h
  unfold registerQueues at hx
  split at hx
  · cases hx
  split at hx
  · rename_i h₁
    cases hx
    exact ⟨fun _ => closeAq_backed hc.pos (hident h h₁), fun b hb => by cases hb⟩
  rename_i h₁
  split at hx
  · cases hx
  split at hx
  · rename_i h₂
    cases hx
    exact ⟨fun _ => closeAq_backed hc.pos (hident (hident h h₁) h₂), fun b hb => by cases hb⟩
  rename_i h₂
  split at hx
  · cases hx
  have hb₂ := hident (hident h h₁) h₂
  split at hx
  · rename_i h₃
    cases hx
    exact ⟨fun _ => closeAq_backed hc.pos (hreq hb₂ h₃), fun b hb => by cases hb⟩
  rename_i n s₃ h₃
  have hn := requestQps_le h₃
  have hb₃ : s₃.Backed c (((([] : List IOQueuePair).map IOQueuePair.dmas).sum) + (aqDma ::ₘ H)) D := by
    rw [List.map_nil, List.sum_nil, zero_add]
    exact hreq hb₂ h₃
  have hf₃ : Fresh c.P ((([] : List IOQueuePair).map IOQueuePair.dmas).sum + (aqDma ::ₘ H)) D
      ((List.range' 0 n).flatMap fun i => (r.qps i).buffers) := by
    rw [List.map_nil, List.sum_nil, zero_add]
    exact hf.sublist (r.qpBuffers_sublist hn)
  have hcopy₃ : ∀ k ∈ List.range' 0 n, (r.qps k).copied = true := by
    intro k hk
    refine List.all_eq_true.mp hcopy k ?_
    rw [List.mem_range'_1] at hk ⊢
    omega
  split at hx
  · rename_i h₄
    cases hx
    refine ⟨fun _ => closeAq_backed hc.pos ?_, fun b hb => by cases hb⟩
    simpa using registerQps_backed hc hcopy₃ hb₃ hf₃ h₄
  · rename_i h₄
    cases hx
    refine ⟨nofun, fun b hb => ?_⟩
    cases hb
    exact registerQps_backed hc hcopy₃ hb₃ hf₃ h₄

end Session

/-! ## The library -/

namespace World

/-- The DMA handles of host memory: the queues and list pages of every registered handle. -/
def hostDmas (w : World) : Multiset NvmDma := (w.handles.map HandleState.dmas).sum

/-- Those of GPU memory. -/
def deviceDmas (w : World) : Multiset NvmDma := (w.bufRegistry.map Buf.dma : List NvmDma)

/-- The memory that a registration allocates is in pages of its own, in none of which mapped memory
begins. -/
def freshBuffers (P : Nat) (w : World) (r : RegCall) : Prop :=
  Fresh P w.hostDmas w.deviceDmas (r.aqBuf.toList ++ r.qpBuffers UGDS_DEFAULT_NUM_QPS)

end World

/-- The call is made by thread `c`, addresses can be copied out, and memory that is to be mapped
begins in a page in which nothing mapped begins. -/
def Label.Proper (P : Nat) (c : Task) (w : World) : Label → Prop
  | .driverOpen | .device .. => True
  | .driverClose current | .handleDeregister current _ | .bufDeregister current _ => current = c
  | .handleRegister r =>
    r.current = c ∧ r.aqMap.copyOut = true ∧ r.qpsCopied UGDS_DEFAULT_NUM_QPS = true ∧
      w.freshBuffers P r
  | .bufRegister env current base _ =>
    current = c ∧ env.copyOut = true ∧
      (w.lookup base = none → ClearDevice P w.hostDmas w.deviceDmas base)
  | .io env current _ a =>
    current = c ∧ env.copyOut = true ∧ (w.lookup a.base = none →
      ClearDevice P w.hostDmas w.deviceDmas (u64 (a.base + a.bufOffset.toNat)))

instance (P : Nat) (c : Task) (w : World) : (l : Label) → Decidable (l.Proper P c w)
  | .driverOpen | .device .. => isTrue trivial
  | .driverClose current | .handleDeregister current _ | .bufDeregister current _ =>
    inferInstanceAs (Decidable (current = c))
  | .handleRegister r =>
    inferInstanceAs (Decidable (r.current = c ∧ r.aqMap.copyOut = true ∧
      r.qpsCopied UGDS_DEFAULT_NUM_QPS = true ∧ Fresh P w.hostDmas w.deviceDmas _))
  | .bufRegister env current base _ =>
    inferInstanceAs (Decidable (current = c ∧ env.copyOut = true ∧ (w.lookup base = none →
      ClearDevice P w.hostDmas w.deviceDmas base)))
  | .io env current _ a =>
    inferInstanceAs (Decidable (current = c ∧ env.copyOut = true ∧ (w.lookup a.base = none →
      ClearDevice P w.hostDmas w.deviceDmas (u64 (a.base + a.bufOffset.toNat)))))

namespace World

/-- The kernel holds the handles of the library. -/
structure Backed (P : Nat) (c : Task) (w : World) : Prop where
  holds : Holds P c w.k w.hostDmas w.deviceDmas
  ids : (w.handles.map HandleState.ctrlId).Nodup
  wf : w.Wf
  registry : w.RegistryInv

section Calls

variable {dev : Device} {j : Nat} {c : Task} {w w' : World}

theorem registerAq_holds (hj : j ≤ 64) {r : RegCall} {mapper : Mapper} {aqDma : NvmDma} {pair : Qp}
    {e : OpError} (hcur : mapper.current = c) (hpage : mapper.ctrl.pageSize = 2 ^ j)
    (hcopy : r.qpsCopied UGDS_DEFAULT_NUM_QPS = true)
    (h : Holds (2 ^ j) c w.k (aqDma ::ₘ w.hostDmas) w.deviceDmas)
    (hf : Fresh (2 ^ j) (aqDma ::ₘ w.hostDmas) w.deviceDmas (r.qpBuffers UGDS_DEFAULT_NUM_QPS))
    (hx : registerAq dev (2 ^ j) w r mapper aqDma pair = some (e, w')) :
    Holds (2 ^ j) c w'.k w'.hostDmas w'.deviceDmas := by
  subst hcur
  simp only [registerAq] at hx
  generalize hctx : (⟨_, mapper, 2 ^ j, _⟩ : Ctx) = ctx at hx
  have hpaged : ctx.Paged j := by
    rw [← hctx]
    exact ⟨hj, rfl, hpage⟩
  have hstart : ((w.reset r mapper.ctrlId mapper.ctrl aqDma).enter r.device pair).Backed ctx
      (aqDma ::ₘ w.hostDmas) w.deviceDmas := by
    rw [Sess.Backed, ← hctx]
    exact h
  have hfresh : Fresh ctx.P (aqDma ::ₘ w.hostDmas) w.deviceDmas
      (r.qpBuffers UGDS_DEFAULT_NUM_QPS) := by
    rw [← hctx]
    exact hf
  split at hx
  · cases hx
  · rename_i s hq
    cases hx
    have hend := (registerQueues_backed hpaged hcopy hstart hfresh hq).1 rfl
    rw [Sess.Backed, ← hctx] at hend
    exact hend
  · rename_i b s hq
    cases hx
    have hend := (registerQueues_backed hpaged hcopy hstart hfresh hq).2 b rfl
    rw [Sess.Backed, ← hctx] at hend
    have hsum : (b.qps.map IOQueuePair.dmas).sum + (aqDma ::ₘ w.hostDmas) =
        w.hostDmas + (([aqDma] : Multiset NvmDma) + (b.qps.map IOQueuePair.dmas).sum) := by
      rw [Multiset.coe_singleton, ← Multiset.singleton_add]
      ac_rfl
    rw [hsum] at hend
    show Holds (2 ^ j) mapper.current s.k ((w.handles ++ [_]).map HandleState.dmas).sum w.deviceDmas
    rw [List.map_append, List.sum_append, List.map_singleton, List.sum_singleton]
    exact hend

theorem registerCtrl_holds (hj : j ≤ 64) {r : RegCall} {mapper : Mapper} {e : OpError}
    (hcur : mapper.current = c) (hr : r.current = c) (hpage : mapper.ctrl.pageSize = 2 ^ j)
    (haq : r.aqMap.copyOut = true) (hcopy : r.qpsCopied UGDS_DEFAULT_NUM_QPS = true)
    (h : Holds (2 ^ j) c w.k w.hostDmas w.deviceDmas) (hf : w.freshBuffers (2 ^ j) r)
    (hx : registerCtrl dev (2 ^ j) w r mapper = some (e, w')) :
    Holds (2 ^ j) c w'.k w'.hostDmas w'.deviceDmas := by
  have hP : 0 < 2 ^ j := Nat.two_pow_pos j
  unfold freshBuffers at hf
  simp only [registerCtrl] at hx
  split at hx
  · cases hx
    exact h
  rename_i buf hbuf
  rw [hbuf, Option.toList_some, List.singleton_append] at hf
  split at hx
  · rename_i hm
    cases hx
    rw [haq] at hm ⊢
    have hk := nvmDmaMapHost_refused hpage (Prod.ext rfl hm)
    exact (congrArg (Holds (2 ^ j) c · w.hostDmas w.deviceDmas) hk).mpr h
  rename_i aqDma hm
  obtain ⟨hv, hmapped⟩ := h.map_host hj hcur hpage (hf.clear buf (List.mem_cons_self ..))
    (Prod.ext rfl hm)
  split at hx
  · cases hx
  · rename_i copied _
    cases hx
    have hend := hmapped.unmap_host hP
    rw [← hr] at hend ⊢
    cases copied with
    | false => exact hend
    | true => exact hend
  · exact registerAq_holds (w := { w with k := _ }) hj hcur hpage hcopy hmapped (hf.used hv) hx

theorem handleRegister_holds (hj : j ≤ 64) {r : RegCall} {e : OpError}
    (hp : Label.Proper (2 ^ j) c w (.handleRegister r))
    (h : Holds (2 ^ j) c w.k w.hostDmas w.deviceDmas)
    (hx : w.handleRegister dev (2 ^ j) r = some (e, w')) :
    Holds (2 ^ j) c w'.k w'.hostDmas w'.deviceDmas := by
  obtain ⟨hcur, haq, hcopy, hf⟩ := hp
  simp only [handleRegister] at hx
  split at hx
  · cases hx
    exact h
  split at hx
  · cases hx
    exact h
  split at hx
  · cases hx
    exact h
  split at hx
  · rename_i ctrl _ hctrl
    let mapper : Mapper := ⟨r.current, r.device, ctrl, w.nextId⟩
    have hthread : mapper.current = c := hcur
    have hpage : mapper.ctrl.pageSize = 2 ^ j := by
      show ctrl.pageSize = 2 ^ j
      rw [(nvmCtrlInit_ok hctrl).2]
    exact registerCtrl_holds (w := w.numbered r) hj hthread hcur hpage haq hcopy h hf hx
  · cases hx
    exact h

/-- The handles of a registered handle, and those of all others. -/
theorem hostDmas_find {id : Nat} {hs : HandleState} (hids : (w.handles.map HandleState.ctrlId).Nodup)
    (hf : w.find id = some hs) :
    w.hostDmas =
      hs.dmas + ((w.handles.filter fun x => x.ctrlId ≠ id).map HandleState.dmas).sum := by
  obtain ⟨hmem, rfl⟩ := find_mem hf
  have hperm := (filter_ne_perm hids hmem).map HandleState.dmas
  rw [hostDmas, hperm.sum_eq, List.map_cons, List.sum_cons]

theorem teardown_backed (ctx : Ctx) {hs : HandleState} (s : Sess) {H D : Multiset NvmDma}
    (hP : 0 < ctx.P) (h : s.Backed ctx (hs.dmas + H) D) : (teardown ctx hs s).Backed ctx H D := by
  have hqps : (hs.qps.reverse.foldl (cleanupQp ctx) s).Backed ctx (hs.aqDma.toList + H) D := by
    refine cleanupQps_backed hP ?_
    rw [(hs.qps.reverse_perm.map IOQueuePair.dmas).sum_eq, ← add_assoc]
    rwa [HandleState.dmas, add_comm (hs.aqDma.toList : Multiset NvmDma)] at h
  simp only [teardown]
  cases haq : hs.aqDma with
  | none => simpa [haq] using hqps
  | some aqDma =>
    rw [haq] at hqps
    exact closeAq_backed hP (by simpa using hqps)

theorem handleDeregister_holds {id : Nat} (hids : (w.handles.map HandleState.ctrlId).Nodup)
    (h : Holds (2 ^ j) c w.k w.hostDmas w.deviceDmas)
    (hx : w.handleDeregister dev (2 ^ j) c id = some w') :
    Holds (2 ^ j) c w'.k w'.hostDmas w'.deviceDmas := by
  unfold handleDeregister at hx
  split at hx
  · cases hx
  rename_i hs hf
  cases hx
  rw [hostDmas_find hids hf] at h
  exact teardown_backed ⟨w.devFor dev id, ⟨c, w.ctrlDev id, hs.ctrl, id⟩, 2 ^ j, w.pairsBut id⟩
    (w.enter (w.ctrlDev id) hs.aq) (Nat.two_pow_pos j) h

theorem driverClose_holds (h : Holds (2 ^ j) c w.k w.hostDmas w.deviceDmas) :
    Holds (2 ^ j) c (w.driverClose c).2.k (w.driverClose c).2.hostDmas
      (w.driverClose c).2.deviceDmas := by
  have hfold (bs : List Buf) (w : World) (H : Multiset NvmDma)
      (h : Holds (2 ^ j) c w.k H (bs.map Buf.dma : List NvmDma)) :
      Holds (2 ^ j) c (bs.foldl (fun w b => w.unmapBuf c b) w).k H 0 := by
    induction bs generalizing w with
    | nil => exact h
    | cons b bs ih => exact ih _ (h.unmap_device (Nat.two_pow_pos j))
  unfold driverClose
  split
  · exact h
  · have hend := hfold w.bufRegistry w w.hostDmas h
    rw [foldl_unmapBuf] at hend ⊢
    exact hend

theorem bufRegister_holds (hj : j ≤ 64) {env : DeviceMapEnv} {base length : Nat} {e : OpError}
    (hcopy : env.copyOut = true)
    (hclear : w.lookup base = none → ClearDevice (2 ^ j) w.hostDmas w.deviceDmas base)
    (h : Holds (2 ^ j) c w.k w.hostDmas w.deviceDmas)
    (hx : w.bufRegister (2 ^ j) env c base length = some (e, w')) :
    Holds (2 ^ j) c w'.k w'.hostDmas w'.deviceDmas := by
  rcases bufRegister_cases hx with ⟨-, k, rfl, rfl | ⟨hs, err, hm⟩⟩ |
    ⟨id, hs, k, dma, -, -, hnew, -, -, hm, rfl⟩
  · exact h
  · rw [mapDevice, hcopy] at hm
    have hk := nvmDmaMapDevice_refused hm
    exact (congrArg (Holds (2 ^ j) c · w.hostDmas w.deviceDmas) hk).mpr h
  · obtain ⟨-, hend⟩ := h.map_device hj rfl (hclear (by rw [lookup, hnew]; rfl)) hm
    show Holds (2 ^ j) c k w.hostDmas ((w.bufRegistry ++ [_]).map Buf.dma : List NvmDma)
    rw [List.map_append, ← Multiset.coe_add, List.map_singleton, Multiset.coe_singleton, add_comm,
      Multiset.singleton_add]
    exact hend

theorem bufDeregister_holds {base : Nat} (hkeys : (w.bufRegistry.map Buf.key).Nodup)
    (h : Holds (2 ^ j) c w.k w.hostDmas w.deviceDmas) :
    Holds (2 ^ j) c (w.bufDeregister c base).2.k (w.bufDeregister c base).2.hostDmas
      (w.bufDeregister c base).2.deviceDmas := by
  unfold bufDeregister
  split
  · exact h
  split
  · exact h
  · rename_i b hb
    have hmem : b ∈ w.bufRegistry := List.mem_of_find?_eq_some hb
    obtain rfl : b.key = base := by simpa using List.find?_some hb
    have hperm := Multiset.coe_eq_coe.mpr ((filter_ne_perm hkeys hmem).map Buf.dma)
    rw [deviceDmas, hperm, List.map_cons, ← Multiset.cons_coe] at h
    exact h.unmap_device (Nat.two_pow_pos j)

/-- Replacing a handle by one with its memory. -/
theorem hostDmas_setHandle {id : Nat} {hs hs' : HandleState}
    (hids : (w.handles.map HandleState.ctrlId).Nodup) (hf : w.find id = some hs)
    (hid : hs'.ctrlId = hs.ctrlId) (hd : hs'.dmas = hs.dmas) :
    (w.setHandle hs').hostDmas = w.hostDmas := by
  rw [hostDmas, hostDmas, setHandle, List.map_map]
  congr 1
  refine List.map_congr_left fun x hx => ?_
  rw [Function.comp_apply]
  split
  · rename_i he
    obtain ⟨hmem, -⟩ := find_mem hf
    rw [List.inj_on_of_nodup_map hids hx hmem (he.trans hid), hd]
  · rfl

theorem holds_setHandle {id : Nat} {hs hs' : HandleState}
    (hids : (w.handles.map HandleState.ctrlId).Nodup) (hf : w.find id = some hs)
    (hid : hs'.ctrlId = hs.ctrlId) (hd : hs'.dmas = hs.dmas)
    (h : Holds (2 ^ j) c w.k w.hostDmas w.deviceDmas) :
    Holds (2 ^ j) c (w.setHandle hs').k (w.setHandle hs').hostDmas (w.setHandle hs').deviceDmas := by
  rw [hostDmas_setHandle hids hf hid hd]
  exact h

theorem dmas_set {hs : HandleState} {i rr : Nat} {q : IOQueuePair} {pair : Qp}
    (hq : hs.qps[i]? = some q) :
    ({ hs with rrCounter := rr, qps := hs.qps.set i { q with pair := pair } } : HandleState).dmas =
      hs.dmas := by
  have hmap : (hs.qps.set i { q with pair := pair }).map IOQueuePair.dmas =
      hs.qps.map IOQueuePair.dmas := by
    refine List.ext_getElem? fun k => ?_
    rw [List.getElem?_map, List.getElem?_map, List.getElem?_set]
    split
    · rename_i hik
      subst hik
      rw [if_pos (List.getElem?_eq_some_iff.mp hq).1, hq]
      rfl
    · rfl
  rw [HandleState.dmas, HandleState.dmas, hmap]

theorem io_holds (hj : j ≤ 64) {env : DeviceMapEnv} {id : Nat} {a : IoArgs} {n : Int}
    (hids : (w.handles.map HandleState.ctrlId).Nodup) (hp : Label.Proper (2 ^ j) c w (.io env c id a))
    (h : Holds (2 ^ j) c w.k w.hostDmas w.deviceDmas)
    (hx : w.io dev (2 ^ j) env c id a = some (n, w')) :
    Holds (2 ^ j) c w'.k w'.hostDmas w'.deviceDmas := by
  obtain ⟨-, hcopy, hclear⟩ := hp
  unfold io at hx
  split at hx
  · cases hx
  rename_i hs hf
  obtain ⟨r, hr, he⟩ := Option.map_eq_some_iff.mp hx
  cases he
  have hsame : r.hs.ctrlId = hs.ctrlId ∧ r.hs.dmas = hs.dmas := by
    rcases doIo_cases hr with ⟨-, -, he, -⟩ | ⟨dma, fly, start, q, ret, t', pair, -, -, hq, hl, rfl⟩
    · exact ⟨by rw [he], by rw [he]⟩
    · exact ⟨rfl, dmas_set hq⟩
  have hset (k : KState) (t : Nat) (log : List Event) :
      ({ w with k := k, t := t, log := log }.setHandle r.hs).hostDmas = w.hostDmas :=
    hostDmas_setHandle (w := { w with k := k, t := t, log := log }) hids hf hsame.1 hsame.2
  have hunmap := doIo_unmapped hr
  by_cases hfly : w.lookup a.base = none ∧ a.Valid hs
  · rw [if_pos hfly] at hunmap
    have hclear := hclear hfly.1
    cases hm : w.mapDevice (2 ^ j) env c hs (u64 (a.base + a.bufOffset.toNat)) a.size with
    | mk k res =>
      rw [hm] at hunmap
      cases res with
      | error e =>
        have hk : k = w.k := by
          rw [mapDevice, hcopy] at hm
          exact nvmDmaMapDevice_refused hm
        simp only [afterIo, hunmap, if_pos hfly, hm, Except.toOption]
        rw [hset, hk]
        exact h
      | ok dma =>
        obtain ⟨-, hmapped⟩ := h.map_device hj rfl hclear hm
        have hend := hmapped.unmap_device (Nat.two_pow_pos j)
        simp only [afterIo, hunmap, if_pos hfly, hm, Except.toOption]
        exact (congrArg (Holds (2 ^ j) c _ · w.deviceDmas) (hset k r.t _)).mpr hend
  · rw [if_neg hfly] at hunmap
    simp only [afterIo, hunmap, if_neg hfly]
    rw [hset]
    exact h

theorem act_holds {acts : List DevAct} {which : Which}
    (hids : (w.handles.map HandleState.ctrlId).Nodup)
    (h : Holds (2 ^ j) c w.k w.hostDmas w.deviceDmas) (hx : w.act acts which = some w') :
    Holds (2 ^ j) c w'.k w'.hostDmas w'.deviceDmas := by
  cases acted_of_act hx with
  | admin hf _ => exact holds_setHandle hids hf rfl rfl h
  | io hf hq _ => exact holds_setHandle hids hf rfl (dmas_set hq) h
  | freed _ _ =>
    split
    · exact h
    · exact h

theorem ids_effect {l : Label} {ret : Ret} (hwf : w.Wf)
    (hids : (w.handles.map HandleState.ctrlId).Nodup) (he : Effect w l ret w') :
    (w'.handles.map HandleState.ctrlId).Nodup := by
  cases he with
  | registered _ hid =>
    rw [List.map_append, List.map_singleton, hid]
    exact nodup_snoc hids (fresh_of_lt fun x hx => (hwf.handles x hx).id_lt)
  | deregistered _ => exact hids.sublist (List.filter_sublist.map _)
  | transferred _ _ =>
    rw [setHandle_ids]
    exact hids
  | acted _ _ =>
    rw [setHandle_ids]
    exact hids
  | _ => exact hids

/-- Every call keeps the kernel's mappings and the handles of the library in step. -/
theorem Backed.call (hj : j ≤ 64) {l : Label} {ret : Ret} (hb : w.Backed (2 ^ j) c)
    (hp : l.Proper (2 ^ j) c w) (hc : w.call dev (2 ^ j) l = some (ret, w')) :
    w'.Backed (2 ^ j) c := by
  have heff := call_effect hc
  refine ⟨?_, ids_effect hb.wf hb.ids heff, hb.wf.effect heff, hb.registry.effect heff⟩
  have h := hb.holds
  cases l with
  | driverOpen =>
    cases hc
    exact h
  | driverClose current =>
    obtain rfl : current = c := hp
    cases hc
    exact driverClose_holds h
  | handleRegister r =>
    obtain ⟨⟨e, w₁⟩, hr, he⟩ := Option.map_eq_some_iff.mp hc
    cases he
    exact handleRegister_holds hj hp h hr
  | handleDeregister current id =>
    obtain rfl : current = c := hp
    obtain ⟨w₁, hr, he⟩ := Option.map_eq_some_iff.mp hc
    cases he
    exact handleDeregister_holds hb.ids h hr
  | bufRegister env current base length =>
    obtain ⟨rfl, hcopy, hclear⟩ := hp
    obtain ⟨⟨e, w₁⟩, hr, he⟩ := Option.map_eq_some_iff.mp hc
    cases he
    exact bufRegister_holds hj hcopy hclear h hr
  | bufDeregister current base =>
    obtain rfl : current = c := hp
    cases hc
    exact bufDeregister_holds hb.registry.keys h
  | io env current id a =>
    obtain rfl : current = c := hp.1
    obtain ⟨⟨n, w₁⟩, hr, he⟩ := Option.map_eq_some_iff.mp hc
    cases he
    exact io_holds hj hb.ids hp h hr
  | device acts which =>
    obtain ⟨w₁, hr, he⟩ := Option.map_eq_some_iff.mp hc
    cases he
    exact act_holds hb.ids h hr

theorem backed_init (j : Nat) (c : Task) (nCtrls : Nat) : (init nCtrls).Backed (2 ^ j) c := by
  refine ⟨?_, List.nodup_nil, wf_init nCtrls, registryInv_init nCtrls⟩
  refine ⟨⟨nofun, List.nodup_nil, nofun⟩, .zero, .zero, Multiset.nodup_zero, Multiset.nodup_zero, ?_⟩
  intro d hd
  exact absurd hd (Multiset.notMem_zero d)

end Calls

end World

/-- All calls come from thread `c`, addresses can be copied out, and memory that is to be mapped
begins in a page in which nothing mapped begins. Then in every state of every run, with any device and
whichever calls fail, the module has for each DMA handle of the library one mapping, made for its
pointer and with its addresses, and no others; when no handle and no buffer is registered it has
none. -/
theorem kernel_backs_handles (dev : Device) (j : Nat) (hj : j ≤ 64) (c : Task) (nCtrls : Nat)
    (tr : List (World × Label)) (w : World)
    (hr : Run (World.step dev (2 ^ j)) (.init nCtrls) tr w)
    (hproper : ∀ x ∈ tr, x.2.Proper (2 ^ j) c x.1) :
    Multiset.Rel (Backs c (2 ^ j)) w.k.hostList w.hostDmas ∧
      Multiset.Rel (Backs c GPU_PAGE_SIZE) w.k.deviceList w.deviceDmas ∧
      (w.handles = [] → w.bufRegistry = [] → w.k.all = []) := by
  have hb : w.Backed (2 ^ j) c := by
    refine (Run.inv (World.Backed (2 ^ j) c) (fun w l => l.Proper (2 ^ j) c w)
      (fun w₁ l w₂ hi hp hs => ?_) hr (World.backed_init j c nCtrls) hproper).1
    obtain ⟨⟨ret, w₃⟩, hc, he⟩ := Option.map_eq_some_iff.mp hs
    cases he
    exact hi.call hj hp hc
  refine ⟨hb.holds.hostMaps, hb.holds.deviceMaps, fun hh hreg => ?_⟩
  have hhost := hb.holds.hostMaps
  have hdev := hb.holds.deviceMaps
  rw [World.hostDmas, hh, List.map_nil, List.sum_nil, Multiset.rel_zero_right,
    Multiset.coe_eq_zero] at hhost
  rw [World.deviceDmas, hreg, List.map_nil, Multiset.coe_nil, Multiset.rel_zero_right,
    Multiset.coe_eq_zero] at hdev
  rw [KState.all, hhost, hdev, List.append_nil]

/-- A transfer to memory that is not registered, between the registration of two buffers, of which one
is taken out again. -/
def mappedCalls : List Label :=
  [.driverOpen, .handleRegister (.ok 0), .bufRegister .ok ⟨0, 0⟩ 0x200000 4096,
    .io .ok ⟨0, 0⟩ 0 (.page 0x400000#64), .bufRegister .ok ⟨0, 0⟩ 0x300000 4096,
    .bufDeregister ⟨0, 0⟩ 0x200000]

theorem kernel_backs_handles_two_buffers :
    ∃ tr w, Run (World.step .prompt (2 ^ 12)) (.init 1) tr w ∧ w.handles.length = 1 ∧
      w.bufRegistry.map Buf.key = [0x300000] ∧
      Multiset.Rel (Backs ⟨0, 0⟩ (2 ^ 12)) w.k.hostList w.hostDmas ∧
      Multiset.Rel (Backs ⟨0, 0⟩ GPU_PAGE_SIZE) w.k.deviceList w.deviceDmas := by
  obtain ⟨tr, w, hr, hproper, hw⟩ := follow_run (World.step .prompt (2 ^ 12))
    (fun w l => l.Proper (2 ^ 12) ⟨0, 0⟩ w) (.init 1) mappedCalls
    (fun w => w.handles.length = 1 && w.bufRegistry.map Buf.key = [0x300000]) (by decide +kernel)
  rw [Bool.and_eq_true, decide_eq_true_eq, decide_eq_true_eq] at hw
  obtain ⟨hhost, hdev, -⟩ := kernel_backs_handles .prompt 12 (by decide) ⟨0, 0⟩ 1 tr w hr
    fun x hx => of_decide_eq_true (hproper x hx)
  exact ⟨tr, w, hr, hw.1, hw.2, hhost, hdev⟩

end UGDS
