import UGDS.Api.World

/-!
# UGDS.Api.Unmaps

Which DMA handles a call passes to `nvm_dma_unmap`, read off the log of the calls.

Registering a handle unmaps on failure what it has mapped, deregistering it what the handle has, and a
transfer what it has mapped for an unregistered buffer. Only `uGDSBufDeregister` and `uGDSDriverClose`
unmap handles of `buf_registry`.

* `UnmapsOnly`: the handles unmapped between two logs have a property.
* `registerQueues_own`: the property is kept through the construction of queue pairs and its rollback.
* `World.call_unmaps`: what each call of the library unmaps.
-/

namespace UGDS

open Nvm Lib Drv

/-- The handles that were passed to `nvm_dma_unmap`, in order. -/
def unmapCalls (log : List Event) : List NvmDma :=
  log.filterMap fun
    | .unmap u => some u.dma
    | _ => none

theorem unmapCalls_append (a b : List Event) :
    unmapCalls (a ++ b) = unmapCalls a ++ unmapCalls b :=
  List.filterMap_append

/-- From `log` to `log'` only handles with the property `p` were unmapped. -/
def UnmapsOnly (p : NvmDma → Prop) (log log' : List Event) : Prop :=
  ∃ new, unmapCalls log' = unmapCalls log ++ new ∧ ∀ d ∈ new, p d

namespace UnmapsOnly

variable {p : NvmDma → Prop} {log log' log'' : List Event}

theorem refl (p : NvmDma → Prop) (log : List Event) : UnmapsOnly p log log :=
  ⟨[], (List.append_nil _).symm, List.forall_mem_nil _⟩

theorem trans (h : UnmapsOnly p log log') (h' : UnmapsOnly p log' log'') : UnmapsOnly p log log'' := by
  obtain ⟨new, he, hp⟩ := h
  obtain ⟨new', he', hp'⟩ := h'
  exact ⟨new ++ new', by rw [he', he, List.append_assoc], List.forall_mem_append.mpr ⟨hp, hp'⟩⟩

theorem mono {q : NvmDma → Prop} (h : UnmapsOnly p log log') (hq : ∀ d, p d → q d) :
    UnmapsOnly q log log' := by
  obtain ⟨new, he, hp⟩ := h
  exact ⟨new, he, fun d hd => hq d (hp d hd)⟩

/-- One more event. -/
theorem snoc {e : Event} (h : ∀ u, e = .unmap u → p u.dma) : UnmapsOnly p log (log ++ [e]) := by
  refine ⟨unmapCalls [e], unmapCalls_append _ _, fun d hd => ?_⟩
  cases e with
  | unmap u =>
    rw [List.mem_singleton.mp hd]
    exact h u rfl
  | timeout | deleteFailed r => cases hd

end UnmapsOnly

/-! ## A session with a device -/

/-- The memory of a queue pair. -/
def IOQueuePair.Owns (qp : IOQueuePair) (d : NvmDma) : Prop :=
  qp.sqDma = some d ∨ qp.cqDma = some d ∨ qp.prpDma = some d

/-- The memory of a handle. -/
def HandleState.Owns (hs : HandleState) (d : NvmDma) : Prop :=
  hs.aqDma = some d ∨ ∃ q ∈ hs.qps, q.Owns d

section Session

variable {p : NvmDma → Prop} {c : Ctx} {s s' : Sess} {dma : NvmDma}

theorem Sess.note_unmaps (s : Sess) (a : Admin) (r : Int) : UnmapsOnly p s.log (s.note a r).log := by
  unfold Sess.note
  split
  · exact .snoc nofun
  · exact .refl p s.log

theorem Sess.noteDelete_unmaps (s : Sess) (a : Admin) (r : Int) :
    UnmapsOnly p s.log (s.noteDelete a r).log := by
  unfold Sess.noteDelete
  split
  · exact (s.note_unmaps a r).trans (.snoc nofun)
  · exact s.note_unmaps a r

theorem Sess.unmap_unmaps (s : Sess) (hp : p dma) (mem : Option QueueMem) (last : Bool) :
    UnmapsOnly p s.log (s.unmap c dma mem last).log :=
  .snoc fun _ he => by cases he; exact hp

theorem cleanupQp_unmaps (s : Sess) {qp : IOQueuePair} (hp : ∀ d, qp.Owns d → p d) :
    UnmapsOnly p s.log (cleanupQp c s qp).log := by
  have hsq (s : Sess) : UnmapsOnly p s.log (cleanupSq c s qp).log := by
    unfold cleanupSq
    split
    · exact .refl p s.log
    · rename_i dma hd
      exact (s.noteDelete_unmaps _ _).trans (Sess.unmap_unmaps _ (hp dma (.inl hd)) _ _)
  have hcq (s : Sess) : UnmapsOnly p s.log (cleanupCq c s qp).log := by
    unfold cleanupCq
    split
    · exact .refl p s.log
    · rename_i dma hd
      exact (s.noteDelete_unmaps _ _).trans (Sess.unmap_unmaps _ (hp dma (.inr (.inl hd))) _ _)
  have hprp (s : Sess) : UnmapsOnly p s.log (cleanupPrp c s qp).log := by
    unfold cleanupPrp
    split
    · exact .refl p s.log
    · rename_i dma hd
      exact s.unmap_unmaps (hp dma (.inr (.inr hd))) _ _
  exact ((hsq s).trans (hcq _)).trans (hprp _)

theorem cleanupQps_unmaps (qps : List IOQueuePair) (s : Sess)
    (hp : ∀ q ∈ qps, ∀ d, q.Owns d → p d) : UnmapsOnly p s.log (qps.foldl (cleanupQp c) s).log := by
  induction qps generalizing s with
  | nil => exact .refl p s.log
  | cons q qps ih =>
    obtain ⟨hq, hqps⟩ := List.forall_mem_cons.mp hp
    exact (cleanupQp_unmaps s hq).trans (ih _ hqps)

theorem closeAq_unmaps (s : Sess) (hp : p dma) : UnmapsOnly p s.log (closeAq c s dma).log :=
  (s.unmap_unmaps hp _ _).trans (Sess.unmap_unmaps _ hp _ _)

end Session

/-! ## Building queue pairs -/

section Register

variable {c : Ctx} {s s' : Sess} {env : QpEnv}

/-- The handle was mapped through the controller of this session. -/
def Ctx.Own (c : Ctx) (d : NvmDma) : Prop := d.ctrl = c.mapper.ctrlId

theorem mapHost_own {env : HostMapEnv} {vaddr size : Nat} {dma : NvmDma}
    (h : s.mapHost c env vaddr size = (.ok dma, s')) : c.Own dma := by
  have hm := congrArg Prod.fst h
  simp only [Sess.mapHost, nvmDmaMapHost] at hm
  split at hm
  · cases hm
  · exact nvmDmaMapRange_ctrl hm

theorem mapHost_unmaps {env : HostMapEnv} {vaddr size : Nat} {o : Except Errno NvmDma}
    (h : s.mapHost c env vaddr size = (o, s')) : UnmapsOnly c.Own s.log s'.log := by
  rw [(mapHost_same h).2.2]
  exact .refl _ _

/-- A queue pair, finished or not, has memory of this session, and no other was unmapped. -/
def BuildsOwn (c : Ctx) (s : Sess) (x : Except IOQueuePair IOQueuePair × Sess) : Prop :=
  UnmapsOnly c.Own s.log x.2.log ∧ ∀ qp, x.1 = .ok qp ∨ x.1 = .error qp → ∀ d, qp.Owns d → c.Own d

theorem IOQueuePair.owns_zero (d : NvmDma) : ¬IOQueuePair.zero.Owns d := by
  simp [IOQueuePair.Owns, IOQueuePair.zero]

theorem BuildsOwn.of_log {x : Except IOQueuePair IOQueuePair × Sess} (h : BuildsOwn c s' x)
    (hl : UnmapsOnly c.Own s.log s'.log) : BuildsOwn c s x :=
  ⟨hl.trans h.1, h.2⟩

/-- The construction ends with the queue pair `qp`, finished or not. -/
theorem BuildsOwn.ends {x : Except IOQueuePair IOQueuePair × Sess} {qp : IOQueuePair}
    (hx : x.1 = .ok qp ∨ x.1 = .error qp) (hl : UnmapsOnly c.Own s.log x.2.log)
    (hqp : ∀ d, qp.Owns d → c.Own d) : BuildsOwn c s x := by
  refine ⟨hl, fun qp' hx' => ?_⟩
  obtain rfl : qp' = qp := by
    rcases hx with hx | hx <;> rcases hx' with hx' | hx' <;> rw [hx] at hx' <;> cases hx' <;> rfl
  exact hqp

theorem registerPrp_own {sq cq : NvmQueue} {sqDma cqDma : NvmDma} (hsq : c.Own sqDma)
    (hcq : c.Own cqDma) : BuildsOwn c s (registerPrp c s env sq cq sqDma cqDma) := by
  have hpart (pair : Qp) : ∀ d, IOQueuePair.Owns ⟨pair, some sqDma, some cqDma, none⟩ d → c.Own d := by
    rintro d (h | h | h) <;> cases h <;> assumption
  unfold registerPrp
  split
  · exact .ends (.inr rfl) (.refl _ _) (hpart _)
  split
  · rename_i hm
    exact .ends (.inr rfl) (mapHost_unmaps hm) (hpart _)
  · rename_i dma s' hm
    have hdma := mapHost_own hm
    refine .ends (.inl rfl) (mapHost_unmaps hm) ?_
    rintro d (h | h | h) <;> cases h <;> assumption

theorem registerSq_own {i : Nat} {cq : NvmQueue} {cqDma : NvmDma} (hcq : c.Own cqDma) :
    BuildsOwn c s (registerSq c s env i cq cqDma) := by
  have hpart (pair : Qp) : ∀ d, IOQueuePair.Owns ⟨pair, none, some cqDma, none⟩ d → c.Own d := by
    rintro d (h | h | h) <;> cases h
    assumption
  unfold registerSq
  split
  · exact .ends (.inr rfl) (.refl _ _) (hpart _)
  split
  · rename_i hm
    exact .ends (.inr rfl) (mapHost_unmaps hm) (hpart _)
  rename_i dma s' hm
  have hdma := mapHost_own hm
  have hlog := mapHost_unmaps hm
  simp only
  split
  · exact .ends (.inr rfl)
      ((hlog.trans (s'.note_unmaps _ _)).trans (Sess.unmap_unmaps _ hdma _ _)) (hpart _)
  · exact (registerPrp_own hdma hcq).of_log (hlog.trans (s'.note_unmaps _ _))

theorem registerQp_own (i : Nat) : BuildsOwn c s (registerQp c s env i) := by
  have hzero : ∀ d, IOQueuePair.zero.Owns d → c.Own d := fun d h => absurd h (IOQueuePair.owns_zero d)
  unfold registerQp
  split
  · exact .ends (.inr rfl) (.refl _ _) hzero
  split
  · rename_i hm
    exact .ends (.inr rfl) (mapHost_unmaps hm) hzero
  rename_i dma s' hm
  have hdma := mapHost_own hm
  have hlog := mapHost_unmaps hm
  simp only
  split
  · exact .ends (.inr rfl)
      ((hlog.trans (s'.note_unmaps _ _)).trans (Sess.unmap_unmaps _ hdma _ _)) hzero
  · exact (registerSq_own hdma).of_log (hlog.trans (s'.note_unmaps _ _))

theorem registerQps_own (env : Nat → QpEnv) (n i : Nat) (s : Sess) (done : List IOQueuePair)
    (hdone : ∀ q ∈ done, ∀ d, q.Owns d → c.Own d) :
    UnmapsOnly c.Own s.log (registerQps c env n i s done).2.log := by
  induction n generalizing i s done with
  | zero => exact .refl _ _
  | succ n ih =>
    have hqp : BuildsOwn c s (registerQp c s (env i) i) := registerQp_own i
    simp only [registerQps]
    split
    · rename_i qp s' he
      rw [he] at hqp
      obtain ⟨hlog, hown⟩ := hqp
      have hclean := cleanupQp_unmaps (c := c) s' (hown qp (.inr rfl))
      exact (hlog.trans hclean).trans (cleanupQps_unmaps done _ hdone)
    · rename_i qp s' he
      rw [he] at hqp
      obtain ⟨hlog, hown⟩ := hqp
      refine hlog.trans (ih (i + 1) s' _ fun q hq => ?_)
      rcases List.mem_append.mp hq with hq | hq
      · exact hdone q hq
      · rw [List.mem_singleton.mp hq]
        exact hown qp (.inl rfl)

theorem registerQueues_own {r : RegCall} {aqDma : NvmDma} {o : Option Built}
    (h : registerQueues c r aqDma s = some (o, s')) (haq : c.Own aqDma) :
    UnmapsOnly c.Own s.log s'.log := by
  have hidentify {s s' : Sess} {ioaddr : BitVec 64} {cmd : NvmCmd} {b : Bool}
      (h : identify c s ioaddr cmd = (b, s')) : UnmapsOnly c.Own s.log s'.log := by
    cases h
    exact s.note_unmaps _ _
  unfold registerQueues at h
  split at h
  · cases h
  split at h
  · rename_i h₁
    cases h
    exact (hidentify h₁).trans (closeAq_unmaps _ haq)
  rename_i h₁
  split at h
  · cases h
  split at h
  · rename_i h₂
    cases h
    exact ((hidentify h₁).trans (hidentify h₂)).trans (closeAq_unmaps _ haq)
  rename_i h₂
  have hlog₂ := (hidentify h₁).trans (hidentify h₂)
  split at h
  · cases h
  have hrequest {s s' : Sess} {o : Option Nat} (h : requestQps c s = (o, s')) :
      UnmapsOnly c.Own s.log s'.log := by
    cases h
    exact s.note_unmaps _ _
  split at h
  · rename_i h₃
    cases h
    exact (hlog₂.trans (hrequest h₃)).trans (closeAq_unmaps _ haq)
  rename_i n s₃ h₃
  have hlog₄ := (hlog₂.trans (hrequest h₃)).trans
    (registerQps_own r.qps n 0 s₃ [] (List.forall_mem_nil _))
  split at h
  · rename_i h₄
    cases h
    rw [h₄] at hlog₄
    exact hlog₄.trans (closeAq_unmaps _ haq)
  · rename_i h₄
    cases h
    rw [h₄] at hlog₄
    exact hlog₄

end Register

/-! ## Calls -/

/-- What a call unmaps at its end is what it has mapped. -/
theorem doIo_unmapped {dev : Device} {t : Nat} {hs : HandleState} {reg : Option NvmDma}
    {mapDevice : Nat → Nat → Except Errno NvmDma} {a : IoArgs} {r : IoResult}
    (h : doIo dev t hs reg mapDevice a = some r) :
    r.unmapped = if reg = none ∧ a.Valid hs then
      (mapDevice (u64 (a.base + a.bufOffset.toNat)) a.size).toOption else none := by
  by_cases hv : a.Valid hs
  · cases hb : ioBuffer hs reg mapDevice a with
    | error e =>
      rw [doIo_error hv hb] at h
      cases h
      cases reg with
      | some dma => simp
      | none =>
        simp only [ioBuffer] at hb
        split at hb
        · rename_i hm
          rw [hm, if_pos ⟨rfl, hv⟩]
          rfl
        · cases hb
    | ok x =>
      obtain ⟨dma, fly, start⟩ := x
      have hfly : r.unmapped = if fly then some dma else none := by
        obtain ⟨h1, h2, h3⟩ := hv.checks
        simp only [doIo, if_neg h1, if_neg h2, if_neg hv.block_pos, if_neg h3, if_neg hv.page_pos,
          hb] at h
        split at h
        · cases h
        split at h
        · cases h
        split at h
        · cases h
        · cases h
          rfl
      rw [hfly]
      simp only [ioBuffer] at hb
      split at hb
      · split at hb
        · cases hb
        split at hb
        · cases hb
        · cases hb
          simp
      · split at hb
        · cases hb
        · rename_i hm
          cases hb
          simp [hm, hv, Except.toOption]
  · rw [doIo_not_valid hv] at h
    cases h
    rw [if_neg fun hn => hv hn.2]

/-- The thread of a call that takes entries out of `buf_registry`. -/
def Label.takesOut : Label → Option Task
  | .driverClose current => some current
  | .bufDeregister current _ => some current
  | _ => none

namespace World

/-- A handle that a call may unmap as its own: mapped through the controller that it has opened, memory
of the handle that it deregisters, or mapped for the transfer because the buffer is not registered. -/
def OwnHandle (P : Nat) (w : World) (d : NvmDma) : Label → Prop
  | .handleRegister _ => d.ctrl = w.nextId
  | .handleDeregister _ h => ∃ hs, w.find h = some hs ∧ hs.Owns d
  | .io env current h a => w.lookup a.base = none ∧ ∃ hs, w.find h = some hs ∧
      (w.mapDevice P env current hs (u64 (a.base + a.bufOffset.toNat)) a.size).2 = .ok d
  | _ => False

section Calls

variable {dev : Device} {P : Nat} {w w' : World}

theorem unmap_unmaps {p : NvmDma → Prop} (w : World) (current : Task) {dma : NvmDma} (hp : p dma)
    (last : Bool) : UnmapsOnly p w.log (w.unmap current dma last).log :=
  .snoc fun _ he => by cases he; exact hp

theorem registerAq_own {r : RegCall} {mapper : Mapper} {aqDma : NvmDma} {pair : Qp} {e : OpError}
    (haq : aqDma.ctrl = mapper.ctrlId)
    (h : registerAq dev P w r mapper aqDma pair = some (e, w')) :
    UnmapsOnly (fun d => d.ctrl = mapper.ctrlId) w.log w'.log := by
  simp only [registerAq] at h
  split at h
  · cases h
  · rename_i s hq
    cases h
    exact registerQueues_own hq haq
  · rename_i b s hq
    cases h
    exact registerQueues_own hq haq

theorem registerCtrl_own {r : RegCall} {mapper : Mapper} {e : OpError}
    (h : registerCtrl dev P w r mapper = some (e, w')) :
    UnmapsOnly (fun d => d.ctrl = mapper.ctrlId) w.log w'.log := by
  simp only [registerCtrl] at h
  split at h
  · cases h
    exact .refl _ _
  generalize hx : nvmDmaMapHost .. = x at h
  obtain ⟨k, o⟩ := x
  cases o with
  | error err =>
    cases h
    exact .refl _ _
  | ok aqDma =>
    have haq : aqDma.ctrl = mapper.ctrlId := by
      simp only [nvmDmaMapHost] at hx
      split at hx
      · cases hx
      · exact nvmDmaMapRange_ctrl (congrArg Prod.snd hx)
    have hunmap (w : World) (last : Bool) :
        UnmapsOnly (fun d => d.ctrl = mapper.ctrlId) w.log (w.unmap r.current aqDma last).log :=
      unmap_unmaps w r.current haq last
    simp only at h
    split at h
    · cases h
    · rename_i copied _
      cases h
      cases copied with
      | false => exact hunmap { w with k := k } true
      | true => exact (hunmap { w with k := k } false).trans (hunmap _ true)
    · exact registerAq_own (w := { w with k := k }) haq h

theorem handleRegister_own {r : RegCall} {e : OpError} (h : w.handleRegister dev P r = some (e, w')) :
    UnmapsOnly (fun d => d.ctrl = w.nextId) w.log w'.log := by
  simp only [handleRegister] at h
  split at h
  · cases h
    exact .refl _ _
  split at h
  · cases h
    exact .refl _ _
  split at h
  · cases h
    exact .refl _ _
  split at h
  · exact registerCtrl_own (w := w.numbered r) h
  · cases h
    exact .refl _ _

theorem handleDeregister_own {current : Task} {id : Nat}
    (h : w.handleDeregister dev P current id = some w') :
    UnmapsOnly (fun d => ∃ hs, w.find id = some hs ∧ hs.Owns d) w.log w'.log := by
  unfold handleDeregister at h
  split at h
  · cases h
  rename_i hs hf
  cases h
  have hown (d : NvmDma) (hd : hs.Owns d) : ∃ hs, w.find id = some hs ∧ hs.Owns d := ⟨hs, hf, hd⟩
  refine UnmapsOnly.mono ?_ hown
  show UnmapsOnly hs.Owns w.log (teardown _ hs _).log
  have hqps (c : Ctx) (s : Sess) :
      UnmapsOnly hs.Owns s.log (hs.qps.reverse.foldl (cleanupQp c) s).log :=
    cleanupQps_unmaps _ s fun q hq d hd => .inr ⟨q, List.mem_reverse.mp hq, hd⟩
  unfold teardown
  split
  · exact hqps _ (w.enter _ _)
  · rename_i aqDma haq
    exact (hqps _ (w.enter _ _)).trans (closeAq_unmaps _ (.inl haq))

theorem io_own {env : DeviceMapEnv} {current : Task} {id : Nat} {a : IoArgs} {n : Int}
    (h : w.io dev P env current id a = some (n, w')) :
    UnmapsOnly (fun d => w.OwnHandle P d (.io env current id a)) w.log w'.log := by
  unfold io at h
  split at h
  · cases h
  rename_i hs hf
  obtain ⟨r, hr, he⟩ := Option.map_eq_some_iff.mp h
  cases he
  have hlog (p : NvmDma → Prop) : UnmapsOnly p w.log
      (if r.used.isSome && r.hs.busy hs.qpIdx then w.log ++ [.timeout] else w.log) := by
    split
    · exact .snoc nofun
    · exact .refl _ _
  have hunmap := doIo_unmapped hr
  simp only [afterIo]
  split
  · exact hlog _
  · rename_i dma hd
    refine (hlog _).trans (unmap_unmaps _ _ ?_ _)
    rw [hd] at hunmap
    split at hunmap
    · rename_i hnone
      refine ⟨hnone.1, hs, hf, ?_⟩
      cases hm : (w.mapDevice P env current hs (u64 (a.base + a.bufOffset.toNat)) a.size).2 with
      | error e =>
        rw [hm] at hunmap
        cases hunmap
      | ok d =>
        rw [hm] at hunmap
        cases hunmap
        rfl
    · cases hunmap

theorem act_log {acts : List DevAct} {which : Which} (h : w.act acts which = some w') :
    w'.log = w.log := by
  cases acted_of_act h with
  | admin hf hserves => rfl
  | io hf hq hserves => rfl
  | freed hf hserves =>
    simp only
    split <;> rfl

/-- What a call unmaps that does not take entries out of `buf_registry`. -/
theorem call_unmaps {l : Label} {ret : Ret} (hc : w.call dev P l = some (ret, w'))
    (hl : l.takesOut = none) : UnmapsOnly (fun d => w.OwnHandle P d l) w.log w'.log := by
  cases l with
  | driverOpen =>
    cases hc
    exact .refl _ _
  | driverClose current => cases hl
  | handleRegister r =>
    obtain ⟨⟨e, w₁⟩, hr, he⟩ := Option.map_eq_some_iff.mp hc
    cases he
    exact handleRegister_own hr
  | handleDeregister current id =>
    obtain ⟨w₁, hr, he⟩ := Option.map_eq_some_iff.mp hc
    cases he
    exact handleDeregister_own hr
  | bufRegister env current base length =>
    obtain ⟨⟨e, w₁⟩, hr, he⟩ := Option.map_eq_some_iff.mp hc
    cases he
    rcases bufRegister_cases hr with ⟨-, k, rfl, -⟩ | ⟨id, hs, k, dma, -, -, -, -, -, -, rfl⟩
    · exact .refl _ _
    · exact .refl _ _
  | bufDeregister current base => cases hl
  | io env current id a =>
    obtain ⟨⟨n, w₁⟩, hr, he⟩ := Option.map_eq_some_iff.mp hc
    cases he
    exact io_own hr
  | device acts which =>
    obtain ⟨w₁, hr, he⟩ := Option.map_eq_some_iff.mp hc
    cases he
    rw [act_log hr]
    exact .refl _ _

end Calls

end World

end UGDS
